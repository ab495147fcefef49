import Quell.Proofs.Grammar.Course
import Quell.Proofs.Grammar.Local

/-!
What ends inside a text.

A string, a template, a regular expression or a comment may hold a stop, so where it ends depends on
the characters in it. But where it ends in front of a place, it ends there whatever stands behind the
place: only the first character behind may matter (`Joint`).
-/
namespace Quell.Grammar

open Text

/-- Two texts that may stand behind a token, and that start alike. -/
structure Joint (y y' : Text) : Prop where
  stops : Stops y
  head : y.head? = y'.head?

section

variable {x y y' z rest : Text} {p : Char → Bool}

theorem Joint.stops' (joint : Joint y y') : Stops y' := fun c hc => joint.stops c (joint.head ▸ hc)

theorem Joint.symm (joint : Joint y y') : Joint y' y := ⟨joint.stops', joint.head.symm⟩

theorem Joint.startsWithAny_eq (joint : Joint y y') (p : Char → Bool) (x : Text) :
    startsWithAny p (x ++ y) = startsWithAny p (x ++ y') := by
  cases x with
  | cons c x => rfl
  | nil =>
    have head := joint.head
    cases y <;> cases y' <;> cases head <;> rfl

/-- Nothing that is shorter than the text behind the place ends in front of the place. -/
theorem not_within (short : rest.length < y.length) : rest ≠ z ++ y := by
  rintro rfl
  rw [List.length_append] at short
  omega

/-! Escapes. -/

theorem afterEscape?_cons (c : Char) (cs : Text) : afterEscape? (c :: cs) =
    if c = 'x' then
      if (cs.take 2).length = 2 ∧ (cs.take 2).all isHex then some (cs.drop 2) else none
    else if c = 'u' then (codePoint? cs).map (·.2)
    else if c = '\r' then some (if startsWithAny (· == '\n') cs then cs.drop 1 else cs)
    else if c = '0' then if startsWithAny Char.isDigit cs then none else some cs
    else if c.isDigit then none
    else some cs := by
  by_cases hex : c = 'x'
  · subst hex
    match cs with
    | [] => rfl
    | [a] => rfl
    | a :: b :: cs => simp [afterEscape?]
  by_cases point : c = 'u'
  · subst point
    rfl
  by_cases ret : c = '\r'
  · subst ret
    cases cs with
    | nil => rfl
    | cons d cs =>
      by_cases feed : d = '\n'
      · subst feed
        rfl
      · simp [afterEscape?, startsWithAny, feed]
  by_cases zero : c = '0'
  · subst zero
    rfl
  unfold afterEscape?
  split <;> simp_all

theorem afterEscape?_append (hy : Stops y) {c : Char} {x : Text}
    (whole : c = '\r' → x = [] → startsWithAny (· == '\n') y = false) :
    afterEscape? (c :: x ++ y) = (afterEscape? (c :: x)).map (· ++ y) := by
  rw [List.cons_append, afterEscape?_cons, afterEscape?_cons]
  split
  · rcases Nat.lt_or_ge x.length 2 with short | long
    · have fails := take_stop misses_isHex (show Stops [] from nofun) short
      rw [List.append_nil] at fails
      rw [if_neg (take_stop misses_isHex hy short), if_neg fails]
      rfl
    · rw [List.take_append_of_le_length long, List.drop_append_of_le_length long]
      split <;> rfl
  split
  · rw [codePoint?_append hy]
    cases codePoint? x <;> rfl
  split
  next ret =>
    cases x with
    | nil =>
      rw [List.nil_append, whole ret rfl]
      rfl
    | cons d x =>
      show some (if d == '\n' then _ else _) = Option.map _ (some (if d == '\n' then _ else _))
      split <;> rfl
  split
  · rw [startsWithAny_append misses_isDigit hy]
    split <;> rfl
  split <;> rfl

theorem afterEscape?_short {cs rest : Text} (h : afterEscape? cs = some rest) :
    rest.length < cs.length := by
  cases cs with
  | nil => cases h
  | cons c cs =>
    rw [afterEscape?_cons] at h
    have behind : rest <:+ cs := by
      split at h
      · split at h <;> cases h
        exact List.drop_suffix _ _
      split at h
      · obtain ⟨⟨n, r⟩, point, rfl⟩ := Option.map_eq_some_iff.mp h
        exact codePoint?_suffix point
      split at h
      · cases h
        split
        · exact List.drop_suffix _ _
        · exact List.suffix_refl _
      split at h
      · split at h <;> cases h
        exact List.suffix_refl _
      split at h <;> cases h
      exact List.suffix_refl _
    exact Nat.lt_succ_of_le behind.length_le

/-- An escape in front of the place is the same whatever stands behind it, unless it reaches over. -/
theorem Joint.afterEscape? (joint : Joint y y') (c : Char) (x : Text) :
    (∃ r : Option Text, Grammar.afterEscape? (c :: x ++ y) = r.map (· ++ y) ∧
      Grammar.afterEscape? (c :: x ++ y') = r.map (· ++ y')) ∨
      ∃ rest, Grammar.afterEscape? (c :: x ++ y) = some rest ∧ rest.length < y.length := by
  by_cases whole : c = '\r' → x = [] → startsWithAny (· == '\n') y = false
  · refine .inl ⟨_, afterEscape?_append joint.stops whole, afterEscape?_append joint.stops' ?_⟩
    intro ret none
    rw [← whole ret none]
    exact (joint.startsWithAny_eq _ []).symm
  · refine .inr ?_
    simp only [Classical.not_imp] at whole
    obtain ⟨rfl, rfl, feed⟩ := whole
    rw [Bool.not_eq_false] at feed
    cases y with
    | nil => cases feed
    | cons d y =>
      obtain rfl : d = '\n' := eq_of_beq feed
      exact ⟨y, rfl, Nat.lt_succ_self _⟩

/-! Strings, templates and regular expressions. -/

theorem afterString?_short {quote : Char} {fuel : Nat} {cs : Text}
    (h : afterString? quote fuel cs = some rest) : rest.length < cs.length := by
  induction fuel generalizing cs with
  | zero => cases h
  | succ fuel ih =>
    cases cs with
    | nil => cases h
    | cons c cs =>
      rw [afterString?] at h
      split at h
      · cases h
        exact Nat.lt_succ_self _
      · split at h
        · obtain ⟨mid, escape, found⟩ := Option.bind_eq_some_iff.mp h
          exact Nat.lt_succ_of_lt (Nat.lt_trans (ih found) (afterEscape?_short escape))
        · split at h
          · cases h
          · exact Nat.lt_succ_of_lt (ih h)

theorem Joint.afterString? (joint : Joint y y') {quote : Char} {fuel fuel' : Nat}
    (h : Grammar.afterString? quote fuel (x ++ y) = some (z ++ y)) (enough : x.length < fuel') :
    Grammar.afterString? quote fuel' (x ++ y') = some (z ++ y') := by
  induction fuel generalizing fuel' x with
  | zero => cases h
  | succ fuel ih =>
    obtain ⟨fuel', rfl⟩ := Nat.exists_eq_succ_of_ne_zero (Nat.ne_of_gt (Nat.zero_lt_of_lt enough))
    cases x with
    | nil => exact absurd rfl (not_within (afterString?_short h))
    | cons c x =>
      rw [List.cons_append, Grammar.afterString?] at h ⊢
      split at h
      next closes =>
        rw [if_pos closes]
        rw [List.append_cancel_right (Option.some.inj h)]
      next inner =>
        rw [if_neg inner]
        split at h
        next slash =>
          rw [if_pos slash]
          cases x with
          | nil =>
            obtain ⟨mid, escape, found⟩ := Option.bind_eq_some_iff.mp h
            have := afterString?_short found
            exact absurd rfl (not_within (Nat.lt_trans this (afterEscape?_short escape)))
          | cons d x =>
            rcases joint.afterEscape? d x with ⟨r, escape, escape'⟩ | ⟨mid, escape, short⟩
            · rw [escape] at h
              rw [escape']
              cases r with
              | none => cases h
              | some r =>
                have inner : r.length < (d :: x).length := by
                  have := afterEscape?_short escape
                  simp only [List.length_append] at this
                  omega
                exact ih h (by simp only [List.length_cons] at inner enough; omega)
            · rw [escape] at h
              exact absurd rfl (not_within (Nat.lt_trans (afterString?_short h) short))
        next plain =>
          rw [if_neg plain]
          split at h
          · cases h
          next same =>
            rw [if_neg same]
            exact ih h (Nat.lt_of_succ_lt_succ enough)

theorem templateRun?_short {fuel : Nat} {odd : Bool} {cs : Text} {run : TemplateRun}
    (h : templateRun? fuel odd cs = some run) : run.rest.length < cs.length := by
  fun_induction templateRun? fuel odd cs with
  | case1 => cases h
  | case2 => cases h
  | case3 => cases h; exact Nat.lt_succ_self _
  | case4 => cases h; exact Nat.lt_succ_of_lt (Nat.lt_succ_self _)
  | case5 fuel odd cs rest escape ih =>
    exact Nat.lt_succ_of_lt (Nat.lt_trans (ih h) (afterEscape?_short escape))
  | case6 fuel odd cs _ ih =>
    have := ih h
    rw [List.length_drop] at this
    rw [List.length_cons]
    omega
  | case7 fuel odd c cs _ _ _ ih => exact Nat.lt_succ_of_lt (ih h)

theorem templateRun?_cons (fuel : Nat) (odd : Bool) (c : Char) (cs : Text) :
    templateRun? (fuel + 1) odd (c :: cs) =
      if c = '\x60' then some ⟨cs, true, odd⟩
      else if c = '$' ∧ startsWithAny (· == '\x7b') cs then some ⟨cs.drop 1, false, odd⟩
      else if c = '\\' then
        match Grammar.afterEscape? cs with
        | some rest => templateRun? fuel odd rest
        | none => templateRun? fuel true (cs.drop 1)
      else templateRun? fuel odd cs := by
  by_cases closes : c = '\x60'
  · subst closes
    rfl
  by_cases slash : c = '\\'
  · subst slash
    rfl
  by_cases dollar : c = '$'
  · subst dollar
    cases cs with
    | nil => rfl
    | cons d cs =>
      by_cases brace : d = '\x7b'
      · subst brace
        rfl
      · simp [templateRun?, startsWithAny, brace]
  · simp [templateRun?, closes, slash, dollar]

theorem Joint.templateRun? (joint : Joint y y') {fuel fuel' : Nat} {odd odd' closed : Bool}
    (h : Grammar.templateRun? fuel odd (x ++ y) = some ⟨z ++ y, closed, odd'⟩)
    (enough : x.length < fuel') :
    Grammar.templateRun? fuel' odd (x ++ y') = some ⟨z ++ y', closed, odd'⟩ := by
  have brace : Misses (· == '\x7b') := misses_of_stopChars (by decide)
  induction fuel generalizing fuel' odd x with
  | zero => cases h
  | succ fuel ih =>
    obtain ⟨fuel', rfl⟩ := Nat.exists_eq_succ_of_ne_zero (Nat.ne_of_gt (Nat.zero_lt_of_lt enough))
    cases x with
    | nil => exact absurd rfl (not_within (templateRun?_short h))
    | cons c x =>
      rw [List.cons_append, templateRun?_cons, startsWithAny_append brace joint.stops] at h
      rw [List.cons_append, templateRun?_cons, startsWithAny_append brace joint.stops']
      rw [List.length_cons] at enough
      split at h
      next closes =>
        obtain ⟨same, rfl, rfl⟩ := TemplateRun.mk.inj (Option.some.inj h)
        rw [if_pos closes, List.append_cancel_right same]
      next inner =>
        rw [if_neg inner]
        split at h
        next hole =>
          rw [if_pos hole]
          cases x with
          | nil => cases hole.2
          | cons d x =>
            obtain ⟨same, rfl, rfl⟩ := TemplateRun.mk.inj (Option.some.inj h)
            rw [List.append_cancel_right same]
            rfl
        next plain =>
          rw [if_neg plain]
          split at h
          next slash =>
            rw [if_pos slash]
            cases x with
            | nil =>
              rw [List.nil_append] at h
              split at h
              next rest escape =>
                have := templateRun?_short h
                exact absurd rfl (not_within (Nat.lt_trans this (afterEscape?_short escape)))
              next =>
                have := templateRun?_short h
                exact absurd rfl (not_within (Nat.lt_of_lt_of_le this (List.drop_suffix _ _).length_le))
            | cons d x =>
              rw [List.length_cons] at enough
              rcases joint.afterEscape? d x with ⟨r, escape, escape'⟩ | ⟨mid, escape, short⟩
              · rw [escape] at h
                rw [escape']
                cases r with
                | none => exact ih (x := x) h (by omega)
                | some r =>
                  have inner : r.length < (d :: x).length := by
                    have := afterEscape?_short escape
                    simp only [List.length_append] at this
                    omega
                  exact ih h (by rw [List.length_cons] at inner; omega)
              · rw [escape] at h
                exact absurd rfl (not_within (Nat.lt_trans (templateRun?_short h) short))
          next =>
            rw [if_neg ‹_›]
            exact ih h (by omega)

theorem afterRegex?_short {inClass : Bool} {cs : Text} (h : afterRegex? inClass cs = some rest) :
    rest.length < cs.length := by
  fun_induction afterRegex? inClass cs with
  | case1 => cases h
  | case2 => cases h
  | case3 inClass c cs _ ih => exact Nat.lt_succ_of_lt (Nat.lt_succ_of_lt (ih h))
  | case4 => cases h
  | case5 => cases h; exact Nat.lt_succ_self _
  | case6 inClass c cs _ _ _ _ ih => exact Nat.lt_succ_of_lt (ih h)
  | case7 inClass c cs _ _ _ _ _ ih => exact Nat.lt_succ_of_lt (ih h)
  | case8 inClass c cs _ _ _ _ _ ih => exact Nat.lt_succ_of_lt (ih h)

theorem afterRegex?_slash (inClass : Bool) (d : Char) (cs : Text) :
    afterRegex? inClass ('\\' :: d :: cs) =
      if isLineEnd d then none else afterRegex? inClass cs := by
  rw [afterRegex?]

theorem afterRegex?_plain {c : Char} (plain : c ≠ '\\') (inClass : Bool) (cs : Text) :
    afterRegex? inClass (c :: cs) =
      if isLineEnd c then none
      else if c == '/' && !inClass then some cs
      else if c == '[' then afterRegex? true cs
      else if c == ']' then afterRegex? false cs
      else afterRegex? inClass cs := by
  rw [afterRegex?]
  exact fun d t e _ => plain e

theorem Joint.afterRegex? (joint : Joint y y') {inClass : Bool}
    (h : Grammar.afterRegex? inClass (x ++ y) = some (z ++ y)) :
    Grammar.afterRegex? inClass (x ++ y') = some (z ++ y') := by
  have beyond : ∀ {b : Bool} {t : Text}, t.length ≤ y.length →
      Grammar.afterRegex? b t ≠ some (z ++ y) := fun le found =>
    not_within (Nat.lt_of_lt_of_le (afterRegex?_short found) le) rfl
  induction x using List.twoStepInduction generalizing inClass with
  | nil => exact absurd h (beyond (Nat.le_refl _))
  | singleton c =>
    rw [List.cons_append, List.nil_append] at h ⊢
    by_cases slash : c = '\\'
    · subst slash
      cases y with
      | nil => cases h
      | cons d y =>
        rw [afterRegex?_slash] at h
        split at h
        · cases h
        · exact absurd h (beyond (Nat.le_succ _))
    · rw [afterRegex?_plain slash] at h ⊢
      split at h
      · cases h
      next inner =>
        rw [if_neg inner]
        split at h
        next closes =>
          rw [if_pos closes]
          exact (List.append_cancel_right (Option.some.inj h : [] ++ y = z ++ y)) ▸ rfl
        next =>
          split at h
          · exact absurd h (beyond (Nat.le_refl _))
          · split at h <;> exact absurd h (beyond (Nat.le_refl _))
  | cons_cons c d x ih one =>
    rw [List.cons_append] at h ⊢
    by_cases slash : c = '\\'
    · subst slash
      rw [List.cons_append, afterRegex?_slash] at h ⊢
      split at h
      · cases h
      next inner =>
        rw [if_neg inner]
        exact ih h
    · rw [afterRegex?_plain slash] at h ⊢
      split at h
      · cases h
      next inner =>
        rw [if_neg inner]
        split at h
        next closes =>
          rw [if_pos closes]
          rw [List.append_cancel_right (Option.some.inj h)]
        next =>
          rw [if_neg ‹_›]
          split at h
          next opens => rw [if_pos opens]; exact one _ h
          next =>
            rw [if_neg ‹_›]
            split at h
            next shuts => rw [if_pos shuts]; exact one _ h
            next => rw [if_neg ‹_›]; exact one _ h

/-! Comments and space. -/

variable {v : Text}

theorem takeWhile_within (inner : v ≠ [])
    (h : (x ++ y).drop ((x ++ y).takeWhile p).length = v ++ y) (y' : Text) :
    (x ++ y').takeWhile p = (x ++ y).takeWhile p ∧
      (x ++ y').drop ((x ++ y').takeWhile p).length = v ++ y' := by
  induction x with
  | nil =>
    have size := congrArg List.length h
    have := List.length_pos_iff.mpr inner
    simp only [List.nil_append, List.length_drop, List.length_append] at size
    omega
  | cons c x ih =>
    simp only [List.cons_append, List.takeWhile_cons] at h ⊢
    split at h
    next goes =>
      obtain ⟨run, rest⟩ := ih h
      rw [if_pos goes, if_pos goes, run]
      exact ⟨rfl, run ▸ rest⟩
    next stays =>
      rw [if_neg stays, if_neg stays]
      refine ⟨rfl, ?_⟩
      have same : c :: x ++ y = v ++ y := h
      rw [← List.append_cancel_right same]
      rfl

theorem splitOnce?_within (inner : v ≠ []) {a b : Char} {body : Text}
    (h : splitOnce? [a, b] (x ++ y) = some (body, v ++ y)) (y' : Text) :
    splitOnce? [a, b] (x ++ y') = some (body, v ++ y') := by
  have beyond : ∀ {t body : Text}, t.length ≤ y.length + 1 →
      splitOnce? [a, b] t ≠ some (body, v ++ y) := by
    intro t body le found
    have size := congrArg List.length (splitOnce?_eq found)
    have := List.length_pos_iff.mpr inner
    simp only [List.length_append, List.length_cons] at size
    omega
  induction x generalizing body with
  | nil => exact absurd h (beyond (Nat.le_succ _))
  | cons c x ih =>
    cases x with
    | nil => exact absurd h (beyond (Nat.le_refl _))
    | cons d x =>
      simp only [List.cons_append] at h ih ⊢
      rw [splitOnce?] at h ⊢
      have after : ∀ t : Text, after? [a, b] (c :: d :: t) =
          if a = c ∧ b = d then some t else none := fun t => by
        simp only [after?]
        split <;> split <;> simp_all
      rw [after] at h ⊢
      split at h
      next rest found =>
        cases h
        split at found
        next same =>
          rw [if_pos same, ← List.append_cancel_right (Option.some.inj found)]
        next => cases found
      next found =>
        split at found
        next => cases found
        next other =>
          rw [if_neg other]
          obtain ⟨⟨body', rest⟩, found', e⟩ := Option.map_eq_some_iff.mp h
          cases e
          rw [ih found']
          rfl

theorem Gap.skip_cons (fuel pos : Nat) (c : Char) (cs : Text) (fresh torn : Bool) (rs : List Remark) :
    Gap.skip (fuel + 1) ⟨pos, c :: cs, fresh, rs, torn⟩ =
      if c = '/' ∧ startsWithAny (· == '/') cs then
        let body := (cs.drop 1).takeWhile (!isLineEnd ·)
        let hi := pos + 2 + bytes body
        Gap.skip fuel ⟨hi, (cs.drop 1).drop body.length, fresh, ⟨.line, body, pos, hi⟩ :: rs, torn⟩
      else if c = '/' ∧ startsWithAny (· == '*') cs then
        match splitOnce? ['*', '/'] (cs.drop 1) with
        | some (body, rest) =>
          let hi := pos + 4 + bytes body
          Gap.skip fuel ⟨hi, rest, fresh || body.any isLineEnd, ⟨.block, body, pos, hi⟩ :: rs, torn⟩
        | none => ⟨pos, c :: cs, fresh, rs, true⟩
      else if isLineEnd c then Gap.skip fuel ⟨pos + c.utf8Size, cs, true, rs, torn⟩
      else if isSpace c then Gap.skip fuel ⟨pos + c.utf8Size, cs, fresh, rs, torn⟩
      else ⟨pos, c :: cs, fresh, rs, torn⟩ := by
  by_cases slash : c = '/'
  · subst slash
    cases cs with
    | nil => rfl
    | cons d cs =>
      by_cases line : d = '/'
      · subst line
        rfl
      by_cases block : d = '*'
      · subst block
        rw [Gap.skip]
        rfl
      · simp [Gap.skip, startsWithAny, line, block]
  · simp [Gap.skip, slash]

/-- What is left of a text is left behind the place or starts in front of it. -/
theorem behind_or_within (h : rest <:+ x ++ y) : rest.length ≤ y.length ∨ ∃ v, v ≠ [] ∧ rest = v ++ y := by
  obtain ⟨t, e⟩ := h
  rcases List.append_eq_append_iff.mp e with ⟨u, rfl, rfl⟩ | ⟨u, -, rfl⟩
  · cases u with
    | nil => exact .inl (Nat.le_refl _)
    | cons c u => exact .inr ⟨c :: u, nofun, rfl⟩
  · exact .inl (by rw [List.length_append]; omega)

/-- Where a token comes in front of the place, the gap is the same whatever stands behind it. -/
theorem Joint.skip (joint : Joint y y') (inner : v ≠ []) {fuel fuel' pos pos' : Nat}
    {fresh fresh' : Bool} {rs rs' : List Remark}
    (h : Gap.skip fuel ⟨pos, x ++ y, fresh, rs, false⟩ = ⟨pos', v ++ y, fresh', rs', false⟩)
    (enough : (x ++ y).length ≤ fuel) (enough' : (x ++ y').length ≤ fuel') :
    Gap.skip fuel' ⟨pos, x ++ y', fresh, rs, false⟩ = ⟨pos', v ++ y', fresh', rs', false⟩ := by
  have beyond : ∀ {fuel : Nat} {g : Gap}, g.rest.length ≤ y.length →
      Gap.skip fuel g ≠ ⟨pos', v ++ y, fresh', rs', false⟩ := by
    intro fuel g le found
    have size := congrArg (fun g : Gap => g.rest.length) found
    have := List.length_pos_iff.mpr inner
    have := (Gap.skip_suffix fuel g).length_le
    simp only [List.length_append] at size
    omega
  have drop_one : ∀ (d : Char) (t : Text), (d :: t).drop 1 = t := fun _ _ => rfl
  induction fuel generalizing fuel' x pos fresh rs with
  | zero =>
    have none := List.length_eq_zero_iff.mp (Nat.le_zero.mp enough)
    rw [none] at h
    exact absurd (List.append_eq_nil_iff.mp (congrArg Gap.rest h).symm).1 inner
  | succ fuel ih =>
    cases x with
    | nil => exact absurd h (beyond (Nat.le_refl _))
    | cons c x =>
      obtain ⟨fuel', rfl⟩ : ∃ n, fuel' = n + 1 :=
        Nat.exists_eq_succ_of_ne_zero (by rw [List.cons_append, List.length_cons] at enough'; omega)
      rw [List.cons_append] at enough enough' h ⊢
      rw [List.length_cons] at enough enough'
      rw [Gap.skip_cons] at h ⊢
      rw [← joint.startsWithAny_eq, ← joint.startsWithAny_eq]
      split at h
      next line =>
        rw [if_pos line]
        cases x with
        | nil =>
          refine absurd h (beyond ?_)
          simp only [List.nil_append, List.length_drop]
          omega
        | cons d x =>
          simp only [List.cons_append, drop_one] at h ⊢
          rcases behind_or_within (List.drop_suffix _ (x ++ y)) with short | ⟨u, inner', rest⟩
          · exact absurd h (beyond short)
          · obtain ⟨body, rest'⟩ := takeWhile_within inner' rest y'
            rw [rest] at h
            rw [rest', body]
            have size := congrArg List.length rest
            have size' := congrArg List.length rest'
            simp only [List.length_drop, List.length_append, List.cons_append, List.length_cons]
              at size size' enough enough'
            exact ih h (by rw [List.length_append]; omega) (by rw [List.length_append]; omega)
      next other =>
        rw [if_neg other]
        split at h
        next block =>
          rw [if_pos block]
          cases x with
          | nil =>
            rw [List.nil_append] at h
            split at h
            next found =>
              refine absurd h (beyond ?_)
              have size := congrArg List.length (splitOnce?_eq found)
              simp only [List.length_append, List.length_cons, List.length_drop] at size
              dsimp only
              omega
            next => cases congrArg Gap.torn h
          | cons d x =>
            simp only [List.cons_append, drop_one] at h ⊢
            split at h
            next body rest found =>
              have parts := splitOnce?_eq found
              rcases behind_or_within ⟨_, parts⟩ with short | ⟨u, inner', rfl⟩
              · exact absurd h (beyond short)
              · rw [splitOnce?_within inner' found]
                have size := congrArg List.length parts
                simp only [List.length_append, List.cons_append, List.length_cons]
                  at size enough enough'
                exact ih h (by rw [List.length_append]; omega) (by rw [List.length_append]; omega)
            next => cases congrArg Gap.torn h
        next other =>
          rw [if_neg other]
          split at h
          next ends =>
            rw [if_pos ends]
            exact ih h (by omega) (by omega)
          next other =>
            rw [if_neg other]
            split at h
            next blank =>
              rw [if_pos blank]
              exact ih h (by omega) (by omega)
            next other =>
              rw [if_neg other]
              obtain ⟨rfl, same, rfl, rfl, -⟩ := Gap.mk.inj h
              rw [← List.cons_append] at same
              rw [← List.append_cancel_right same]
              rfl

end

end Quell.Grammar
