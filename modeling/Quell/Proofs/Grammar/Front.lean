import Quell.Proofs.Grammar.Within

/-!
Tokens in front of a place.

A token that ends in front of a place is the same whatever stands behind the place (`Fronts`), however
far it is taken.
-/
namespace Quell.Grammar

open Text

namespace Token

/-- The token is cut as its lexeme asks for. -/
structure Reads (k : Token) : Prop where
  read : Lexeme.read k.fresh k.here = (k.lexeme, k.rest)
  hi : k.hi = k.lo + bytes (k.here.take (k.here.length - k.rest.length))

/-- The token does not stand in front of a comment that was left open. -/
def Whole (k : Token) : Prop := ¬(k.lexeme = .bad ∧ k.rest = k.here ∧ ∃ cs, k.here = '/' :: cs)

theorem skip_torn {fuel : Nat} {g : Gap} (whole : g.torn = false)
    (torn : (Gap.skip fuel g).torn = true) : ∃ cs, (Gap.skip fuel g).rest = '/' :: cs := by
  fun_induction Gap.skip fuel g with
  | case1 => cases whole.symm.trans torn
  | case2 _ _ _ _ _ _ ih => exact ih whole torn
  | case3 _ _ _ _ _ _ _ _ ih => exact ih whole torn
  | case4 fuel g cs e => exact ⟨_, e⟩
  | case5 _ _ _ _ _ _ _ _ ih => exact ih whole torn
  | case6 _ _ _ _ _ _ _ _ _ ih => exact ih whole torn
  | case7 => cases whole.symm.trans torn
  | case8 => cases whole.symm.trans torn

theorem behind_reads (gap : Gap) : (behind gap).Reads := ⟨rfl, rfl⟩

theorem next_whole {pos : Nat} {rest : Text} {fresh : Bool} (whole : (next pos rest fresh).Whole) :
    (Gap.skip rest.length { pos, rest, fresh }).torn = false ∧
      next pos rest fresh = .behind (Gap.skip rest.length { pos, rest, fresh }) := by
  unfold next at whole ⊢
  dsimp only at whole ⊢
  split at whole
  next torn => exact absurd ⟨rfl, rfl, skip_torn rfl torn⟩ whole
  next torn => exact ⟨Bool.not_eq_true _ ▸ torn, if_neg torn⟩

end Token

theorem Lexeme.read_quoted {fresh : Bool} {c : Char} {cs : Text}
    (h : (Lexeme.read fresh (c :: cs)).1 = .quoted) :
    (Lexeme.read fresh (c :: cs)).2 = (afterString? c (c :: cs).length cs).getD (c :: cs) := by
  unfold Lexeme.read at h ⊢
  dsimp only at h ⊢
  by_cases word : (isNameStart c || c == '\\') = true
  · rw [if_pos word] at h
    split at h
    · split at h <;> cases h
    · cases h
  rw [if_neg word] at h ⊢
  by_cases number : (c.isDigit || (c == '.' && startsWithAny Char.isDigit cs)) = true
  · rw [if_pos number] at h
    split at h
    · split at h <;> cases h
    · cases h
  rw [if_neg number] at h ⊢
  by_cases quote : (c == '"' || c == '\'') = true
  · rw [if_pos quote]
  rw [if_neg quote] at h
  split at h
  · split at h <;> cases h
  split at h
  · cases h
  split at h <;> cases h

theorem Token.Reads.rest_quoted {k : Token} {c : Char} {cs : Text} (reads : k.Reads)
    (here : k.here = c :: cs) (quoted : k.lexeme = .quoted) :
    k.rest = (afterString? c (c :: cs).length cs).getD (c :: cs) := by
  have read := reads.read
  rw [here] at read
  have rest := Lexeme.read_quoted ((congrArg Prod.fst read).trans quoted)
  rwa [read] at rest

theorem afterFlags?_append {x y : Text} (hy : Stops y) :
    afterFlags? (x ++ y) = (afterFlags? x).map (· ++ y) := by
  unfold afterFlags?
  dsimp only
  rw [drop_takeWhile_append misses_isNamePart hy, takeWhile_append misses_isNamePart hy]
  split <;> rfl

/-- Tokens that start with the same characters in front of two texts. -/
structure Fronts (y y' : Text) (k k' : Token) : Prop where
  lo : k'.lo = k.lo
  fresh : k'.fresh = k.fresh
  remarks : k'.remarks = k.remarks
  here : ∃ c v, k.here = c :: v ++ y ∧ k'.here = c :: v ++ y'
  reads : k.Reads
  reads' : k'.Reads

section

variable {y y' z : Text} {k k' : Token}

theorem Joint.fronts (joint : Joint y y') {x v : Text} {pos : Nat} {fresh : Bool} (inner : v ≠ [])
    (whole : (Token.next pos (x ++ y) fresh).Whole)
    (here : (Token.next pos (x ++ y) fresh).here = v ++ y) :
    Fronts y y' (Token.next pos (x ++ y) fresh) (Token.next pos (x ++ y') fresh) := by
  obtain ⟨sound, old⟩ := Token.next_whole whole
  rw [old] at here ⊢
  generalize skipped : Gap.skip (x ++ y).length { pos, rest := x ++ y, fresh } = g at sound here
  obtain ⟨pos', rest, fresh', rs, torn⟩ := g
  obtain rfl : torn = false := sound
  obtain rfl : rest = v ++ y := here
  have skipped' := joint.skip inner skipped (Nat.le_refl _) (Nat.le_refl (x ++ y').length)
  have new : Token.next pos (x ++ y') fresh = Token.behind ⟨pos', v ++ y', fresh', rs, false⟩ := by
    unfold Token.next
    rw [skipped']
    rfl
  obtain ⟨c, u, rfl⟩ := List.exists_cons_of_ne_nil inner
  rw [new]
  exact ⟨rfl, rfl, rfl, ⟨c, u, rfl, rfl⟩, Token.behind_reads _, Token.behind_reads _⟩

namespace Fronts

theorem lexeme_eq (fronts : Fronts y y' k k') (joint : Joint y y') : k'.lexeme = k.lexeme := by
  obtain ⟨c, v, here, here'⟩ := fronts.here
  have read := fronts.reads.read
  have read' := fronts.reads'.read
  rw [here] at read
  rw [here', fronts.fresh] at read'
  rcases Lexeme.read_append joint.stops k.fresh c v with e | ⟨quoted, same⟩
  · rcases Lexeme.read_append joint.stops' k.fresh c v with e' | ⟨quoted', same'⟩
    · rw [e] at read
      rw [e'] at read'
      exact (congrArg Prod.fst read').symm.trans (congrArg Prod.fst read)
    · rw [e] at read
      rw [read'] at quoted'
      exact quoted'.trans (same'.symm.trans (congrArg Prod.fst read))
  · rw [read] at quoted
    rcases Lexeme.read_append joint.stops' k.fresh c v with e' | ⟨quoted', -⟩
    · rw [e'] at read'
      exact (congrArg Prod.fst read').symm.trans (same.trans quoted.symm)
    · rw [read'] at quoted'
      exact quoted'.trans quoted.symm

theorem rest_eq (fronts : Fronts y y' k k') (joint : Joint y y') (plain : k.lexeme ≠ .quoted) :
    ∃ r, k.rest = r ++ y ∧ k'.rest = r ++ y' := by
  obtain ⟨c, v, here, here'⟩ := fronts.here
  have read := fronts.reads.read
  have read' := fronts.reads'.read
  rw [here] at read
  rw [here', fronts.fresh] at read'
  rcases Lexeme.read_append joint.stops k.fresh c v with e | ⟨quoted, -⟩
  · rcases Lexeme.read_append joint.stops' k.fresh c v with e' | ⟨quoted, -⟩
    · rw [e] at read
      rw [e'] at read'
      exact ⟨_, (congrArg Prod.snd read).symm, (congrArg Prod.snd read').symm⟩
    · rw [read'] at quoted
      exact absurd ((fronts.lexeme_eq joint).symm.trans quoted) plain
  · rw [read] at quoted
    exact absurd quoted plain

theorem hi_eq (fronts : Fronts y y' k k') {r : Text} (rest : k.rest = r ++ y)
    (rest' : k'.rest = r ++ y') : k'.hi = k.hi := by
  obtain ⟨c, v, here, here'⟩ := fronts.here
  have cut : ∀ u : Text, (c :: v ++ u).take ((c :: v ++ u).length - (r ++ u).length) =
      (c :: v).take ((c :: v).length - r.length) := by
    intro u
    rw [List.length_append, List.length_append, Nat.add_sub_add_right,
      List.take_append_of_le_length (Nat.sub_le _ _)]
  rw [fronts.reads.hi, fronts.reads'.hi, fronts.lo, here, here', rest, rest', cut, cut]

theorem operator_eq (fronts : Fronts y y' k k') (joint : Joint y y') : k'.operator = k.operator := by
  have inner : ∀ e ∈ greaterSigns, ∀ c ∈ e.1.drop 1, c ∉ stopChars := by decide
  obtain ⟨c, v, here, here'⟩ := fronts.here
  unfold Token.operator
  rw [fronts.lexeme_eq joint, here, here', firstSign?_append joint.stops c v inner,
    firstSign?_append joint.stops' c v inner, Option.map_map, Option.map_map]
  rfl

/-- The operator at the start of a token is there whatever stands behind it. -/
theorem operator_prefix (fronts : Fronts y y' k k') (joint : Joint y y') {c : Char} {v : Text}
    (here : k.here = c :: v ++ y) {sign : String} (op : k.operator = some sign) :
    ∃ r, sign.toList ++ r = c :: v := by
  have inner : ∀ e ∈ greaterSigns, ∀ c ∈ e.1.drop 1, c ∉ stopChars := by decide
  have read := fronts.reads.read
  unfold Token.operator at op
  split at op
  next =>
    rw [here, firstSign?_append joint.stops c v inner, Option.map_map] at op
    obtain ⟨⟨s, r⟩, found, e⟩ := Option.map_eq_some_iff.mp op
    cases e
    exact ⟨r, firstSign?_spec greaterSigns_spelled found⟩
  next s _ lexeme =>
    cases op
    rw [here] at read
    rcases Lexeme.read_append joint.stops k.fresh c v with e | ⟨quoted, -⟩
    · rw [e] at read
      exact ⟨_, (read_cases k.fresh (c :: v)).2 sign ((congrArg Prod.fst read).trans lexeme)⟩
    · rw [read, lexeme] at quoted
      cases quoted
  next => cases op

/-- However far a token is taken, if that ends in front of the place, then it ends there whatever stands
behind the place. -/
theorem reach (fronts : Fronts y y' k k') (joint : Joint y y') {how : Reach} {c : Char} {v : Text}
    (here : k.here = c :: v ++ y) (here' : k'.here = c :: v ++ y') (short : z.length ≤ v.length)
    (fits : how.fits k.lexeme = true) (taken : how.rest? k = some (z ++ y)) :
    how.rest? k' = some (z ++ y') := by
  have cut : ∀ {n : Nat} {u : Text}, n ≤ (c :: v).length → (c :: v ++ u).drop n = (c :: v).drop n ++ u :=
    fun le => List.drop_append_of_le_length le
  have rest : k.rest = z ++ y → k'.rest = z ++ y' := by
    intro taken
    by_cases quoted : k.lexeme = .quoted
    · have quoted' := (fronts.lexeme_eq joint).trans quoted
      rw [List.cons_append] at here here'
      rw [fronts.reads.rest_quoted here quoted] at taken
      rw [fronts.reads'.rest_quoted here' quoted']
      cases found : afterString? c (c :: (v ++ y)).length (v ++ y) with
      | none =>
        rw [found] at taken
        have size := congrArg List.length taken
        simp only [Option.getD_none, List.length_cons, List.length_append] at size
        omega
      | some r =>
        rw [found] at taken
        obtain rfl : r = z ++ y := taken
        have enough : v.length < (c :: (v ++ y')).length := by
          simp only [List.length_cons, List.length_append]
          omega
        rw [joint.afterString? found enough]
        rfl
    · obtain ⟨r, same, new⟩ := fronts.rest_eq joint quoted
      rw [new, List.append_cancel_right (same.symm.trans taken)]
  cases how with
  | token | words => exact congrArg some (rest (Option.some.inj taken))
  | operator =>
    rw [Reach.rest?] at taken ⊢
    rw [fronts.operator_eq joint]
    split at taken
    next sign op =>
      obtain ⟨r, front⟩ := fronts.operator_prefix joint here op
      have le : sign.length ≤ (c :: v).length := by
        rw [← front, List.length_append, ← String.length_toList]
        exact Nat.le_add_right _ _
      rw [here, cut le] at taken
      rw [here', cut le, List.append_cancel_right (Option.some.inj taken)]
    next => exact congrArg some (rest (Option.some.inj taken))
  | less =>
    rw [Reach.rest?, here, List.cons_append] at taken
    rw [Reach.rest?, here', List.cons_append]
    split at taken
    next same =>
      obtain ⟨rfl, rfl⟩ := List.cons.inj same
      rw [List.append_cancel_right (Option.some.inj taken)]
      rfl
    next => cases taken
  | regex =>
    rw [Reach.rest?, here] at taken
    rw [Reach.rest?, here']
    obtain ⟨mid, body, flags⟩ := Option.bind_eq_some_iff.mp taken
    obtain ⟨t, rfl⟩ := afterFlags?_suffix flags
    rw [← List.append_assoc] at body flags
    rw [List.cons_append, List.drop_succ_cons, List.drop_zero] at body ⊢
    rw [joint.afterRegex? body, Option.bind_some, afterFlags?_append joint.stops']
    rw [afterFlags?_append joint.stops] at flags
    obtain ⟨r, found, same⟩ := Option.map_eq_some_iff.mp flags
    rw [found, List.append_cancel_right same]
    rfl
  | tagName =>
    have tail : Misses fun c => isNamePart c || c == '-' := fun d stop => by
      dsimp only
      rw [misses_isNamePart d stop]
      exact beq_false_of_ne fun e => (by decide : '-' ∉ stopChars) (e ▸ stop.mem)
    rw [Reach.rest?, here, drop_takeWhile_append tail joint.stops] at taken
    rw [Reach.rest?, here', drop_takeWhile_append tail joint.stops',
      List.append_cancel_right (Option.some.inj taken)]
  | quoted =>
    rw [Reach.rest?, here, List.cons_append, afterQuoted?] at taken
    rw [Reach.rest?, here', List.cons_append, afterQuoted?]
    split at taken
    next quote =>
      rw [if_pos quote]
      split at taken
      next d rest found =>
        cases taken
        obtain ⟨-, found'⟩ := takeWhile_within (v := d :: z) (List.cons_ne_nil d z) found y'
        rw [found']
        rfl
      next => cases taken
    next => cases taken
  | template =>
    rw [Reach.rest?, here] at taken
    rw [Reach.rest?, here']
    obtain ⟨⟨rest, closed, odd⟩, found, same⟩ := Option.map_eq_some_iff.mp taken
    obtain rfl : rest = z ++ y := same
    rw [List.cons_append, List.drop_succ_cons, List.drop_zero] at found ⊢
    have enough : v.length < (c :: (v ++ y')).length := by
      simp only [List.length_cons, List.length_append]
      omega
    rw [joint.templateRun? found enough]
    rfl

end Fronts

end

end Quell.Grammar
