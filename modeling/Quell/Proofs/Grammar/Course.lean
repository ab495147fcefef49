import Quell.Proofs.Grammar.Sited

/-!
The course of a reading.

A reader that answers has gone from reading to reading, each time taking some text. These readings are
the course of the run. Its stretches tell where a reading stands on the course, and one whose stretches
are not found there has gone astray and stays so.
-/
namespace Quell.Grammar

open Text

/-- A gap that is passed ends where a suffix of the text starts. -/
theorem Gap.skip_suffix (fuel : Nat) (g : Gap) : (Gap.skip fuel g).rest <:+ g.rest := by
  have tail : ∀ {c : Char} {cs t : Text}, t <:+ cs → t <:+ c :: cs := fun h =>
    h.trans (List.suffix_cons _ _)
  fun_induction Gap.skip fuel g with
  | case1 => exact List.suffix_refl _
  | case2 fuel g cs e body hi ih =>
    rw [e]
    exact tail (tail (ih.trans (List.drop_suffix _ _)))
  | case3 fuel g cs e body rest found hi ih =>
    rw [e]
    exact tail (tail (ih.trans ⟨_, splitOnce?_eq found⟩))
  | case4 => exact List.suffix_refl _
  | case5 fuel g c cs _ _ e _ ih => exact e ▸ tail ih
  | case6 fuel g c cs _ _ e _ _ ih => exact e ▸ tail ih
  | case7 => exact List.suffix_refl _
  | case8 => exact List.suffix_refl _

theorem Token.here_suffix (pos : Nat) (rest : Text) (fresh : Bool) :
    (Token.next pos rest fresh).here <:+ rest := by
  have skipped := Gap.skip_suffix rest.length { pos, rest, fresh }
  unfold Token.next
  dsimp only
  split <;> exact skipped

namespace Reading

variable {s s' t : Reading} {how : Reach} {x : Text × Text} {text words rest source : Text}

/-- How a text is taken, with the raw text behind it, and what is left then. -/
structure Takes (s : Reading) (how : Reach) (text words rest : Text) : Prop where
  fits : how.fits s.token.lexeme = true
  reach : how.rest? s.token = some (words ++ rest)
  text_eq : text = s.token.here.take (s.token.here.length - (words ++ rest).length)
  solid : text ≠ []
  words_eq : words = if how = .words then (words ++ rest).takeWhile (!endsMarkupText ·) else []

theorem take?_eq_some : s.take? how = some (x, s') ↔
    ∃ rest, s.Takes how x.1 x.2 rest ∧ s' = s.behind x.1 x.2 rest := by
  unfold take?
  constructor
  · intro h
    split at h
    next after found =>
      split at found
      next fits =>
        dsimp only at h
        generalize run : (if how = .words then after.takeWhile (!endsMarkupText ·) else []) = w at h
        have start : w <+: after := by
          rw [← run]
          split
          · exact List.takeWhile_prefix _
          · exact List.nil_prefix
        have parts : w ++ after.drop w.length = after := List.prefix_iff_eq_append.mp start
        split at h
        next => cases h
        next solid =>
          cases h
          refine ⟨after.drop w.length, ⟨fits, by rw [parts, found], by rw [parts], ?_, ?_⟩, rfl⟩
          · exact fun none => solid (List.isEmpty_iff.mpr none)
          · rw [parts, run]
      next => cases found
    next => cases h
  · rintro ⟨rest, ⟨fits, reach, text_eq, solid, words_eq⟩, rfl⟩
    obtain ⟨text, words⟩ := x
    dsimp only at reach text_eq solid words_eq ⊢
    rw [if_pos fits, reach]
    dsimp only
    rw [← words_eq, ← text_eq, List.drop_left, if_neg]
    exact fun none => solid (List.isEmpty_iff.mp none)

theorem Takes.parts (takes : s.Takes how text words rest) (suffix : s.token.rest <:+ s.token.here) :
    text ++ (words ++ rest) = s.token.here := by
  rw [takes.text_eq]
  exact take_suffix (Reach.rest?_suffix suffix takes.reach)

/-- The stretches before the last text was taken. -/
def prior : List Stretch → List Stretch
  | ⟨_, _, true, _⟩ :: _ :: ss => ss
  | _ :: ss => ss
  | [] => []

theorem prior_behind : prior (s.behind text words rest).stretches = s.stretches := by
  unfold behind
  cases words <;> rfl

/-- How often a text was taken. -/
def cuts (s : Reading) : Nat := s.stretches.countP fun x => !x.raw

theorem cuts_behind : (s.behind text words rest).cuts = s.cuts + 1 := by
  unfold cuts behind
  cases words <;> simp

theorem lo_lt_last (solid : text ≠ []) : s.token.lo < (s.behind text words rest).last := by
  have wide : 0 < bytes text := Nat.pos_of_ne_zero fun none => solid (bytes_eq_zero.mp none)
  show s.token.lo < s.token.lo + bytes text + bytes words
  omega

theorem stretches_behind (s : Reading) (words rest : Text) (solid : text ≠ []) :
    ∃ new, (s.behind text words rest).stretches = new ++ s.stretches ∧
      ∀ st ∈ new, s.token.lo ≤ st.lo ∧ st.lo < st.hi ∧ st.hi ≤ (s.behind text words rest).last := by
  have wide : 0 < bytes text := Nat.pos_of_ne_zero fun none => solid (bytes_eq_zero.mp none)
  refine ⟨_ ++ [_], (List.append_assoc _ [_] _).symm, fun st mem => ?_⟩
  show _ ∧ _ ∧ _ ≤ s.token.lo + bytes text + bytes words
  rcases List.mem_append.mp mem with raw | here
  · split at raw
    · cases raw
    next filled =>
      have wide' : 0 < bytes words := Nat.pos_of_ne_zero fun none =>
        filled (by rw [bytes_eq_zero.mp none]; rfl)
      rw [List.mem_singleton.mp raw]
      dsimp only
      omega
  · rw [List.mem_singleton.mp here]
    dsimp only
    omega

theorem behind_congr {text' words' rest' : Text}
    (h : text ++ (words ++ rest) = text' ++ (words' ++ rest'))
    (same : (s.behind text words rest).stretches = (s.behind text' words' rest').stretches) :
    s.behind text words rest = s.behind text' words' rest' := by
  have sizes : bytes text = bytes text' ∧ bytes words = bytes words' := by
    unfold behind at same
    have whole := congrArg List.length same
    cases words with
    | nil =>
      cases words' with
      | nil =>
        obtain ⟨first, -⟩ := List.cons.inj same
        have mid := congrArg Stretch.hi first
        dsimp only at mid
        exact ⟨by omega, rfl⟩
      | cons c words' => simp at whole
    | cons c words =>
      cases words' with
      | nil => simp at whole
      | cons d words' =>
        obtain ⟨raw, later⟩ := List.cons.inj same
        obtain ⟨first, -⟩ := List.cons.inj later
        have mid := congrArg Stretch.hi first
        have hi := congrArg Stretch.hi raw
        dsimp only at mid hi
        exact ⟨by omega, by omega⟩
  obtain ⟨rfl, behind⟩ := append_inj_bytes h sizes.1
  obtain ⟨rfl, rfl⟩ := append_inj_bytes behind sizes.2
  rfl

end Reading

/-- The readings that a run goes through. -/
structure Course (n : Nat) (along : Nat → Reading) : Prop where
  start : ∃ pos rest, along 0 = Reading.start pos rest
  step : ∀ i < n, ∃ how x, (along i).take? how = some (x, along (i + 1))
  fits : ∃ source, (along 0).Fits source

theorem Reader.exists_course {α : Type} (p : Reader α) {c : Scope} {s s' : Reading} {a : α}
    (run : p.run c s = some (a, s')) (start : ∃ pos rest, s = Reading.start pos rest)
    (fits : ∃ source, s.Fits source) :
    ∃ n along, along 0 = s ∧ along n = s' ∧ Course n along := by
  refine p.preserves (P := fun t => ∃ n along, along 0 = s ∧ along n = t ∧ Course n along) ?_ run
    ⟨0, fun _ => s, rfl, rfl, start, nofun, fits⟩
  rintro how t x t' ⟨n, along, rfl, rfl, course⟩ taken
  have old : ∀ i ≤ n, (if i ≤ n then along i else t') = along i := fun i le => if_pos le
  have new : (if n + 1 ≤ n then along (n + 1) else t') = t' := if_neg (Nat.not_succ_le_self n)
  refine ⟨n + 1, fun i => if i ≤ n then along i else t', old 0 (Nat.zero_le n), new, ?_, ?_, ?_⟩
  · rw [old 0 (Nat.zero_le n)]
    exact course.start
  · intro i lt
    rcases Nat.lt_or_eq_of_le (Nat.le_of_lt_succ lt) with lt | rfl
    · rw [old i (Nat.le_of_lt lt), old (i + 1) lt]
      exact course.step i lt
    · rw [old i (Nat.le_refl i), new]
      exact ⟨how, x, taken⟩
  · rw [old 0 (Nat.zero_le n)]
    exact course.fits

namespace Course

variable {n i : Nat} {along : Nat → Reading} {s s' : Reading} {how : Reach} {x : Text × Text}

/-- Its stretches are those of no reading on the course. -/
def Astray (n : Nat) (along : Nat → Reading) (s : Reading) : Prop :=
  ∀ i ≤ n, (along i).stretches ≠ s.stretches

theorem step_spec (course : Course n along) (lt : i < n) : ∃ how text words rest,
    (along i).Takes how text words rest ∧ along (i + 1) = (along i).behind text words rest := by
  obtain ⟨how, x, taken⟩ := course.step i lt
  obtain ⟨rest, takes, next⟩ := Reading.take?_eq_some.mp taken
  exact ⟨how, x.1, x.2, rest, takes, next⟩

theorem stretches_start (course : Course n along) : (along 0).stretches = [] := by
  obtain ⟨pos, rest, start⟩ := course.start
  rw [start]
  rfl

theorem cuts_eq (course : Course n along) (le : i ≤ n) : (along i).cuts = i := by
  induction i with
  | zero =>
    unfold Reading.cuts
    rw [course.stretches_start]
    rfl
  | succ i ih =>
    obtain ⟨how, text, words, rest, -, next⟩ := course.step_spec le
    rw [next, Reading.cuts_behind, ih (Nat.le_of_lt le)]

theorem fits_at (course : Course n along) {source : Text} (fits : (along 0).Fits source) (le : i ≤ n) :
    (along i).Fits source := by
  induction i with
  | zero => exact fits
  | succ i ih =>
    obtain ⟨how, x, taken⟩ := course.step i le
    exact (ih (Nat.le_of_lt le)).take? taken

theorem suffix (course : Course n along) (le : i ≤ n) :
    (along i).token.rest <:+ (along i).token.here := by
  obtain ⟨source, fits⟩ := course.fits
  exact (course.fits_at fits le).token.suffix

theorem token_eq (course : Course n along) (le : i ≤ n) :
    (along i).token = Token.next (along i).last (along i).rest (i == 0) := by
  cases i with
  | zero =>
    obtain ⟨pos, rest, start⟩ := course.start
    rw [start]
    rfl
  | succ i =>
    obtain ⟨how, text, words, rest, -, next⟩ := course.step_spec le
    rw [next]
    rfl

theorem rest_suffix (course : Course n along) {j : Nat} (le : i ≤ j) (le' : j ≤ n) :
    (along j).rest <:+ (along i).rest := by
  induction j with
  | zero =>
    cases Nat.le_zero.mp le
    exact List.suffix_refl _
  | succ j ih =>
    rcases Nat.lt_or_eq_of_le le with lt | rfl
    · obtain ⟨how, text, words, rest, takes, next⟩ := course.step_spec le'
      have here : (along j).token.here <:+ (along j).rest := by
        rw [course.token_eq (Nat.le_of_lt le')]
        exact Token.here_suffix _ _ _
      have behind : rest <:+ (along j).token.here :=
        ⟨text ++ words, by rw [List.append_assoc, takes.parts (course.suffix (Nat.le_of_lt le'))]⟩
      rw [next]
      exact (behind.trans here).trans (ih (Nat.le_of_lt_succ lt) (Nat.le_of_lt le'))
    · exact List.suffix_refl _

theorem strays (course : Course n along) (astray : Astray n along s)
    (taken : s.take? how = some (x, s')) : Astray n along s' := by
  obtain ⟨rest, -, rfl⟩ := Reading.take?_eq_some.mp taken
  intro i le same
  cases i with
  | zero =>
    rw [course.stretches_start] at same
    have := congrArg List.length same
    unfold Reading.behind at this
    simp at this
  | succ i =>
    obtain ⟨how, text, words, rest', -, next⟩ := course.step_spec le
    rw [next] at same
    have before := congrArg Reading.prior same
    rw [Reading.prior_behind, Reading.prior_behind] at before
    exact astray i (Nat.le_of_lt le) before

/-- What is taken on the course leads along it or astray. -/
theorem along_or_astray (course : Course n along) (le : i ≤ n)
    (taken : (along i).take? how = some (x, s')) : i < n ∧ s' = along (i + 1) ∨ Astray n along s' := by
  by_contra neither
  obtain ⟨off, found⟩ := not_or.mp neither
  unfold Astray at found
  push Not at found
  obtain ⟨j, le', same⟩ := found
  obtain ⟨rest, takes, rfl⟩ := Reading.take?_eq_some.mp taken
  have cuts : (along j).cuts = ((along i).behind x.1 x.2 rest).cuts := by
    unfold Reading.cuts
    rw [same]
  rw [course.cuts_eq le', Reading.cuts_behind, course.cuts_eq le] at cuts
  subst cuts
  obtain ⟨how', text, words, rest', takes', next⟩ := course.step_spec le'
  refine off ⟨le', ?_⟩
  rw [next] at same ⊢
  have suffix := course.suffix le
  exact (Reading.behind_congr ((takes'.parts suffix).trans (takes.parts suffix).symm) same).symm

/-- A stretch that is the first one on its line starts where the next token of a reading on the course
does. -/
theorem exists_token (course : Course n along) (le : i ≤ n) {st : Stretch}
    (mem : st ∈ (along i).stretches) (fresh : st.fresh = true) :
    ∃ j < i, (along j).token.lo = st.lo ∧ (along j).token.fresh = true := by
  induction i with
  | zero =>
    rw [course.stretches_start] at mem
    cases mem
  | succ i ih =>
    obtain ⟨how, text, words, rest, -, next⟩ := course.step_spec le
    rw [next] at mem
    unfold Reading.behind at mem
    rcases List.mem_append.mp mem with raw | mem
    · split at raw
      · cases raw
      · rw [List.mem_singleton.mp raw] at fresh
        cases fresh
    · rcases List.mem_cons.mp mem with rfl | mem
      · exact ⟨i, Nat.lt_succ_self i, rfl, fresh⟩
      · obtain ⟨j, lt, here⟩ := ih (Nat.le_of_lt le) mem
        exact ⟨j, Nat.lt_succ_of_lt lt, here⟩

/-! What has been taken and passed since an earlier reading. -/

theorem last_le (course : Course n along) (le : i ≤ n) : (along i).last ≤ (along i).token.lo := by
  obtain ⟨source, fits⟩ := course.fits
  exact (course.fits_at fits le).ahead.le

theorem lo_lt_last (course : Course n along) {j : Nat} (lt : j < i) (le : i ≤ n) :
    (along j).token.lo < (along i).last := by
  induction i with
  | zero => cases lt
  | succ i ih =>
    obtain ⟨how, text, words, rest, takes, next⟩ := course.step_spec le
    have wide : _ < ((along i).behind text words rest).last := Reading.lo_lt_last takes.solid
    rw [← next] at wide
    rcases Nat.lt_or_eq_of_le (Nat.le_of_lt_succ lt) with lt | rfl
    · exact Nat.lt_trans (Nat.lt_of_lt_of_le (ih lt (Nat.le_of_lt le))
        (course.last_le (Nat.le_of_lt le))) wide
    · exact wide

theorem lo_le_lo (course : Course n along) {j : Nat} (le : j ≤ i) (le' : i ≤ n) :
    (along j).token.lo ≤ (along i).token.lo := by
  rcases Nat.lt_or_eq_of_le le with lt | rfl
  · exact Nat.le_trans (Nat.le_of_lt (course.lo_lt_last lt le')) (course.last_le le')
  · exact Nat.le_refl _

theorem stretches_since (course : Course n along) {j : Nat} (le : j ≤ i) (le' : i ≤ n) :
    ∃ late, (along i).stretches = late ++ (along j).stretches ∧
      ∀ st ∈ late, (along j).token.lo ≤ st.lo ∧ st.lo < st.hi := by
  induction i with
  | zero =>
    obtain rfl := Nat.le_zero.mp le
    exact ⟨[], rfl, nofun⟩
  | succ i ih =>
    rcases Nat.lt_or_eq_of_le le with lt | rfl
    · have le := Nat.le_of_lt_succ lt
      obtain ⟨late, before, bounds⟩ := ih le (Nat.le_of_lt le')
      obtain ⟨how, text, words, rest, takes, next⟩ := course.step_spec le'
      obtain ⟨new, here, wide⟩ := (along i).stretches_behind words rest takes.solid
      refine ⟨new ++ late, by rw [next, here, before, List.append_assoc], fun st mem => ?_⟩
      rcases List.mem_append.mp mem with mem | mem
      · obtain ⟨lo, some, -⟩ := wide st mem
        exact ⟨Nat.le_trans (course.lo_le_lo le (Nat.le_of_lt le')) lo, some⟩
      · exact bounds st mem
    · exact ⟨[], rfl, nofun⟩

theorem stretches_le (course : Course n along) (le : i ≤ n) :
    ∀ st ∈ (along i).stretches, st.lo < st.hi ∧ st.hi ≤ (along i).last := by
  induction i with
  | zero =>
    rw [course.stretches_start]
    nofun
  | succ i ih =>
    obtain ⟨how, text, words, rest, takes, next⟩ := course.step_spec le
    obtain ⟨new, here, wide⟩ := (along i).stretches_behind words rest takes.solid
    rw [next, here]
    intro st mem
    rcases List.mem_append.mp mem with mem | mem
    · exact (wide st mem).2
    · obtain ⟨some, hi⟩ := ih (Nat.le_of_lt le) st mem
      refine ⟨some, Nat.le_trans hi (Nat.le_trans (course.last_le (Nat.le_of_lt le)) ?_)⟩
      exact Nat.le_of_lt (Reading.lo_lt_last takes.solid)

theorem remarks_since (course : Course n along) {j : Nat} (le : j ≤ i) (le' : i ≤ n) :
    ∃ late, (along i).token.remarks ++ (along i).remarks =
        late ++ ((along j).token.remarks ++ (along j).remarks) ∧
      ∀ r ∈ late, (along j).token.lo ≤ r.lo := by
  induction i with
  | zero =>
    obtain rfl := Nat.le_zero.mp le
    exact ⟨[], rfl, nofun⟩
  | succ i ih =>
    rcases Nat.lt_or_eq_of_le le with lt | rfl
    · obtain ⟨late, before, bounds⟩ := ih (Nat.le_of_lt_succ lt) (Nat.le_of_lt le')
      obtain ⟨how, text, words, rest, -, next⟩ := course.step_spec le'
      have remarks : (along (i + 1)).remarks = (along i).token.remarks ++ (along i).remarks := by
        rw [next]
        rfl
      refine ⟨(along (i + 1)).token.remarks ++ late,
        by rw [remarks, before, List.append_assoc], fun r mem => ?_⟩
      rcases List.mem_append.mp mem with mem | mem
      · obtain ⟨source, fits⟩ := course.fits
        exact Nat.le_trans (Nat.le_of_lt (course.lo_lt_last lt le'))
          ((course.fits_at fits le').ahead.fits r mem).2.1
      · exact bounds r mem
    · exact ⟨[], rfl, nofun⟩

end Course
end Quell.Grammar
