import Quell.Proofs.Grammar.Regap
import Quell.Proofs.Print.Stops

/-!
A line put into a gap.

Where only spaces and tabs stand at the end of a gap in its last line, no comment is open there. So what
is put in behind it is passed in its turn, and a line comment that ends its line adds one comment to
the gap and nothing else: `Gap.passed_row`.
-/
namespace Quell.Grammar

open Text

theorem isSpace_of_isSpaceOrTab {c : Char} (h : Page.isSpaceOrTab c = true) :
    isSpace c = true ∧ isLineEnd c = false ∧ c ≠ '/' := by
  unfold Page.isSpaceOrTab at h
  rw [Bool.or_eq_true, beq_iff_eq, beq_iff_eq] at h
  rcases h with rfl | rfl <;> decide

theorem lastLine_free {v : Text} (free : '\n' ∉ v) : lastLine v = v :=
  Text.lastLine_eq (.inl rfl) free

/-- A suffix of a text has no more in its last line. -/
theorem run_lastLine_of_suffix {x v : Text} (h : Run (lastLine (x ++ v))) : Run (lastLine v) := by
  by_cases breaks : '\n' ∈ v
  · rwa [lastLine_append breaks] at h
  · rw [lastLine_append_free breaks] at h
    rw [lastLine_free breaks]
    exact fun c mem => h c (List.mem_append_right _ mem)

/-- Where the last line is blank, a line ends behind every slash. -/
theorem breaks_of_slash {x v : Text} (h : Run (lastLine (x ++ '/' :: v))) : '\n' ∈ v := by
  by_contra free
  have run := run_lastLine_of_suffix h
  rw [lastLine_free (by simp [free])] at run
  exact absurd (run '/' List.mem_cons_self) (by decide)

/-- A run that ends in a text goes no farther if more follows. -/
theorem takeWhile_inside {p : Char → Bool} {c : Char} {v : Text} (mem : c ∈ v) (stop : p c = false)
    (t : Text) : (v ++ t).takeWhile p = v.takeWhile p ∧
      (v ++ t).drop (v.takeWhile p).length = v.drop (v.takeWhile p).length ++ t := by
  refine ⟨?_, List.drop_append_of_le_length (List.takeWhile_prefix p).length_le⟩
  rw [List.takeWhile_append, if_neg]
  intro all
  have whole := (List.takeWhile_prefix p).eq_of_length all
  rw [← whole] at mem
  cases stop.symm.trans (List.mem_takeWhile_imp mem)

namespace Gap

variable {pos pos' : Nat} {g b u : Text} {fresh fresh' torn : Bool} {rs rs' : List Remark}

/-- The gap behind all that can be passed. -/
def passed (g : Gap) : Gap := Gap.skip g.rest.length g

/-- More fuel than characters makes no difference. -/
theorem skip_eq_passed {fuel : Nat} {g : Gap} (enough : g.rest.length ≤ fuel) :
    Gap.skip fuel g = g.passed := by
  suffices both : ∀ n (g : Gap) (fuel fuel' : Nat), g.rest.length ≤ n → g.rest.length ≤ fuel →
      g.rest.length ≤ fuel' → Gap.skip fuel g = Gap.skip fuel' g from
    both _ g fuel _ (Nat.le_refl _) enough (Nat.le_refl _)
  intro n
  induction n with
  | zero =>
    rintro ⟨pos, rest, fresh, rs, torn⟩ fuel fuel' none - -
    obtain rfl : rest = [] := List.length_eq_zero_iff.mp (Nat.le_zero.mp none)
    rw [skip_nil, skip_nil]
  | succ n ih =>
    rintro ⟨pos, rest, fresh, rs, torn⟩ fuel fuel' short enough enough'
    cases rest with
    | nil => rw [skip_nil, skip_nil]
    | cons c cs =>
      rw [List.length_cons] at short enough enough'
      obtain ⟨fuel, rfl⟩ := Nat.exists_eq_succ_of_ne_zero (Nat.ne_of_gt (Nat.zero_lt_of_lt enough))
      obtain ⟨fuel', rfl⟩ := Nat.exists_eq_succ_of_ne_zero (Nat.ne_of_gt (Nat.zero_lt_of_lt enough'))
      have next : ∀ {pos t fresh rs torn}, t.length ≤ cs.length →
          Gap.skip fuel ⟨pos, t, fresh, rs, torn⟩ = Gap.skip fuel' ⟨pos, t, fresh, rs, torn⟩ :=
        fun {pos t fresh rs torn} le =>
          ih ⟨pos, t, fresh, rs, torn⟩ _ _ (Nat.le_trans le (Nat.le_of_succ_le_succ short))
            (Nat.le_trans le (Nat.le_of_succ_le_succ enough))
            (Nat.le_trans le (Nat.le_of_succ_le_succ enough'))
      rw [skip_cons, skip_cons]
      split
      · exact next (by simp only [List.length_drop]; omega)
      · split
        · split
          next body rest found =>
            have size := congrArg List.length (splitOnce?_eq found)
            simp only [List.length_append, List.length_cons, List.length_drop] at size
            exact next (by omega)
          next => rfl
        · split
          · exact next (Nat.le_refl _)
          · split
            · exact next (Nat.le_refl _)
            · rfl

theorem passed_cons (pos : Nat) (c : Char) (cs : Text) (fresh torn : Bool) (rs : List Remark) :
    passed ⟨pos, c :: cs, fresh, rs, torn⟩ =
      if c = '/' ∧ startsWithAny (· == '/') cs then
        let body := (cs.drop 1).takeWhile (!isLineEnd ·)
        let hi := pos + 2 + bytes body
        passed ⟨hi, (cs.drop 1).drop body.length, fresh, ⟨.line, body, pos, hi⟩ :: rs, torn⟩
      else if c = '/' ∧ startsWithAny (· == '*') cs then
        match splitOnce? ['*', '/'] (cs.drop 1) with
        | some (body, rest) =>
          let hi := pos + 4 + bytes body
          passed ⟨hi, rest, fresh || body.any isLineEnd, ⟨.block, body, pos, hi⟩ :: rs, torn⟩
        | none => ⟨pos, c :: cs, fresh, rs, true⟩
      else if isLineEnd c then passed ⟨pos + c.utf8Size, cs, true, rs, torn⟩
      else if isSpace c then passed ⟨pos + c.utf8Size, cs, fresh, rs, torn⟩
      else ⟨pos, c :: cs, fresh, rs, torn⟩ := by
  rw [passed, List.length_cons, skip_cons]
  split
  · exact skip_eq_passed (by simp only [List.length_drop]; omega)
  · split
    · cases found : splitOnce? ['*', '/'] (cs.drop 1) with
      | none => rfl
      | some parts =>
        have size := congrArg List.length (splitOnce?_eq found)
        simp only [List.length_append, List.length_cons, List.length_drop] at size
        exact skip_eq_passed (by dsimp only; omega)
    · split
      · rfl
      · split <;> rfl

theorem passed_suffix (g : Gap) : g.passed.rest <:+ g.rest := skip_suffix _ g

/-- No gap starts the text. -/
def Still (b : Text) : Prop :=
  ∀ pos fresh rs, passed ⟨pos, b, fresh, rs, false⟩ = ⟨pos, b, fresh, rs, false⟩

theorem still_passed {g : Gap} (whole : g.passed.torn = false) : Still g.passed.rest := by
  suffices each : ∀ n (g : Gap), g.rest.length ≤ n → g.passed.torn = false → Still g.passed.rest from
    each _ g (Nat.le_refl _) whole
  intro n
  induction n with
  | zero =>
    rintro ⟨pos, rest, fresh, rs, torn⟩ none -
    obtain rfl : rest = [] := List.length_eq_zero_iff.mp (Nat.le_zero.mp none)
    exact fun _ _ _ => rfl
  | succ n ih =>
    rintro ⟨pos, rest, fresh, rs, torn⟩ short whole
    cases rest with
    | nil => exact fun _ _ _ => rfl
    | cons c cs =>
      rw [List.length_cons] at short
      have next : ∀ {t : Text}, t.length ≤ cs.length → t.length ≤ n :=
        fun le => Nat.le_trans le (Nat.le_of_succ_le_succ short)
      rw [passed_cons] at whole ⊢
      by_cases line : c = '/' ∧ startsWithAny (· == '/') cs
      · rw [if_pos line] at whole ⊢
        exact ih _ (next (by simp only [List.length_drop]; omega)) whole
      rw [if_neg line] at whole ⊢
      by_cases block : c = '/' ∧ startsWithAny (· == '*') cs
      · rw [if_pos block] at whole ⊢
        cases found : splitOnce? ['*', '/'] (cs.drop 1) with
        | none =>
          rw [found] at whole
          cases whole
        | some parts =>
          obtain ⟨body, rest⟩ := parts
          rw [found] at whole
          have size := congrArg List.length (splitOnce?_eq found)
          simp only [List.length_append, List.length_cons, List.length_drop] at size
          exact ih _ (next (by dsimp only; omega)) whole
      rw [if_neg block] at whole ⊢
      by_cases ends : isLineEnd c = true
      · rw [if_pos ends] at whole ⊢
        exact ih _ (next (Nat.le_refl _)) whole
      rw [if_neg ends] at whole ⊢
      by_cases blank : isSpace c = true
      · rw [if_pos blank] at whole ⊢
        exact ih _ (next (Nat.le_refl _)) whole
      rw [if_neg blank]
      intro pos fresh rs
      rw [passed_cons, if_neg line, if_neg block, if_neg ends, if_neg blank]

/-- A gap with a blank last line ends in front of what stands behind it, whatever that is. -/
theorem passed_through (still : Still b)
    (h : passed ⟨pos, g ++ b, fresh, rs, false⟩ = ⟨pos', b, fresh', rs', false⟩)
    (blank : Run (lastLine g)) (u : Text) :
    passed ⟨pos, g ++ u, fresh, rs, false⟩ = passed ⟨pos', u, fresh', rs', false⟩ := by
  induction hn : g.length using Nat.strong_induction_on generalizing g pos fresh rs with
  | _ n ih =>
    subst hn
    cases g with
    | nil =>
      rw [List.nil_append, still] at h
      cases h
      rfl
    | cons c g =>
      have inside : c = '/' → '\n' ∈ g := fun slash => by
        subst slash
        exact breaks_of_slash (x := []) blank
      have starts : ∀ p t, c = '/' ∧ startsWithAny p (g ++ t) = true ↔
          c = '/' ∧ startsWithAny p g = true := fun p t => by
        refine and_congr_right fun slash => ?_
        cases g with
        | nil => exact absurd (inside slash) List.not_mem_nil
        | cons d g => rfl
      rw [List.cons_append, passed_cons] at h ⊢
      simp only [starts] at h ⊢
      by_cases line : c = '/' ∧ startsWithAny (· == '/') g
      · rw [if_pos line] at h ⊢
        cases g with
        | nil => exact absurd (inside line.1) List.not_mem_nil
        | cons d g =>
          have slash : d = '/' := eq_of_beq line.2
          subst slash
          have mem : '\n' ∈ g := breaks_of_slash (x := [c]) blank
          have cut := takeWhile_inside (p := (!isLineEnd ·)) mem (by decide)
          simp only [List.cons_append, List.drop_succ_cons, List.drop_zero] at h ⊢
          rw [(cut b).1, (cut b).2] at h
          rw [(cut u).1, (cut u).2]
          refine ih _ ?_ h ?_ rfl
          · simp only [List.length_cons, List.length_drop]
            omega
          · rw [← List.take_append_drop (g.takeWhile (!isLineEnd ·)).length g] at blank
            exact run_lastLine_of_suffix (x := c :: '/' :: _) blank
      rw [if_neg line] at h ⊢
      by_cases block : c = '/' ∧ startsWithAny (· == '*') g
      · rw [if_pos block] at h ⊢
        cases g with
        | nil => exact absurd (inside block.1) List.not_mem_nil
        | cons d g =>
          simp only [List.cons_append, List.drop_succ_cons, List.drop_zero] at h ⊢
          cases found : splitOnce? ['*', '/'] (g ++ b) with
          | none =>
            rw [found] at h
            cases congrArg Gap.torn h
          | some parts =>
            obtain ⟨body, rest⟩ := parts
            rw [found] at h
            dsimp only at h
            have whole := splitOnce?_eq found
            obtain ⟨v, rfl⟩ : b <:+ rest := by
              have suffix := passed_suffix ⟨pos + 4 + bytes body, rest, fresh || body.any isLineEnd,
                ⟨.block, body, pos, pos + 4 + bytes body⟩ :: rs, false⟩
              rwa [h] at suffix
            rw [← List.append_assoc] at whole
            have inner := List.append_cancel_right whole
            subst inner
            have mem : '\n' ∈ v :=
              breaks_of_slash (x := c :: d :: (body ++ ['*'])) (by simpa using blank)
            rw [splitOnce?_within (List.ne_nil_of_mem mem) found u]
            refine ih _ ?_ h ?_ rfl
            · simp only [List.length_cons, List.length_append]
              omega
            · exact run_lastLine_of_suffix (x := c :: d :: (body ++ ['*', '/'])) (by simpa using blank)
      rw [if_neg block] at h ⊢
      have blank' : Run (lastLine g) := run_lastLine_of_suffix (x := [c]) blank
      by_cases ends : isLineEnd c = true
      · rw [if_pos ends] at h ⊢
        exact ih _ (Nat.lt_succ_self _) h blank' rfl
      rw [if_neg ends] at h ⊢
      by_cases space : isSpace c = true
      · rw [if_pos space] at h ⊢
        exact ih _ (Nat.lt_succ_self _) h blank' rfl
      rw [if_neg space] at h
      have size := congrArg (fun g : Gap => g.rest.length) h
      simp only [List.length_cons, List.length_append] at size
      omega

theorem passed_comment {body t : Text} (plain : ∀ c ∈ body, isLineEnd c = false)
    (ends : ∀ c ∈ t.head?, isLineEnd c = true) :
    passed ⟨pos, '/' :: '/' :: (body ++ t), fresh, rs, torn⟩ =
      passed ⟨pos + 2 + bytes body, t, fresh,
        ⟨.line, body, pos, pos + 2 + bytes body⟩ :: rs, torn⟩ := by
  have run : (body ++ t).takeWhile (!isLineEnd ·) = body := by
    rw [List.takeWhile_append_of_pos (fun c mem => by rw [plain c mem]; rfl)]
    cases t with
    | nil => exact List.append_nil body
    | cons c t => rw [List.takeWhile_cons, ends c rfl]; exact List.append_nil body
  rw [passed_cons, if_pos ⟨rfl, rfl⟩]
  simp only [List.drop_succ_cons, List.drop_zero, run, List.drop_left]

theorem passed_run {v t : Text} (blank : Run v) :
    passed ⟨pos, v ++ t, fresh, rs, torn⟩ = passed ⟨pos + bytes v, t, fresh, rs, torn⟩ := by
  induction v generalizing pos with
  | nil => rfl
  | cons c v ih =>
    obtain ⟨space, plain, slash⟩ := isSpace_of_isSpaceOrTab (blank c List.mem_cons_self)
    rw [List.cons_append, passed_cons, if_neg (fun h => slash h.1), if_neg (fun h => slash h.1),
      if_neg (by rw [plain]; exact Bool.noConfusion), if_pos space,
      ih fun d mem => blank d (List.mem_cons_of_mem _ mem), bytes_cons, Nat.add_assoc]

theorem passed_lineEnd {c : Char} (ends : isLineEnd c = true) (t : Text) :
    passed ⟨pos, c :: t, fresh, rs, torn⟩ = passed ⟨pos + c.utf8Size, t, true, rs, torn⟩ := by
  have slash : c ≠ '/' := by
    rintro rfl
    exact absurd ends (by decide)
  rw [passed_cons, if_neg (fun h => slash h.1), if_neg (fun h => slash h.1), if_pos ends]

theorem passed_eol (eol : LineEnding) (t : Text) :
    passed ⟨pos, eol.text ++ t, fresh, rs, torn⟩ =
      passed ⟨pos + bytes eol.text, t, true, rs, torn⟩ := by
  cases eol with
  | lf => exact passed_lineEnd (by decide) t
  | crlf => exact (passed_lineEnd (by decide) ('\n' :: t)).trans (passed_lineEnd (by decide) t)

/-- A line comment put in at the end of a gap, with the line that it ends. -/
def row (body : Text) (eol : LineEnding) (indent : Text) : Text :=
  '/' :: '/' :: (body ++ (eol.text ++ indent))

theorem passed_row (eol : LineEnding) {body indent : Text} (still : Still b)
    (h : passed ⟨pos, g ++ b, fresh, rs, false⟩ = ⟨pos', b, fresh', rs', false⟩)
    (blank : Run (lastLine g)) (plain : ∀ c ∈ body, isLineEnd c = false) (free : Run indent) :
    passed ⟨pos, g ++ (row body eol indent ++ b), fresh, rs, false⟩ =
      ⟨pos' + bytes (row body eol indent), b, true,
        ⟨.line, body, pos', pos' + 2 + bytes body⟩ :: rs', false⟩ := by
  have ends : ∀ c ∈ (eol.text ++ (indent ++ b)).head?, isLineEnd c = true := by
    cases eol <;> · rintro c ⟨⟩; decide
  have split : row body eol indent ++ b = '/' :: '/' :: (body ++ (eol.text ++ (indent ++ b))) := by
    unfold row
    simp only [List.cons_append, List.append_assoc]
  have size : bytes (row body eol indent) = 2 + bytes body + bytes eol.text + bytes indent := by
    have slash : '/'.utf8Size = 1 := rfl
    simp only [row, bytes_cons, bytes_append, slash]
    omega
  rw [passed_through still h blank, split, passed_comment plain ends, passed_eol, passed_run free,
    still, size]
  simp only [Nat.add_assoc]

end Gap
end Quell.Grammar
