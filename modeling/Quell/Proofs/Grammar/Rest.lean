import Mathlib.Data.List.Infix
import Quell.Grammar.Token
import Quell.Proofs.Text.Offsets

/-!
What follows a token.

Whatever is cut off the front of a text to make a token, what follows is the end of that text
(`read_cases`), and a mark is cut off with just its own characters.
-/
namespace Quell

namespace Text

theorem after?_suffix {pre cs rest : Text} (h : after? pre cs = some rest) : pre ++ rest = cs := by
  induction pre generalizing cs with
  | nil => exact (Option.some.inj h).symm
  | cons p pre ih =>
    cases cs with
    | nil => cases h
    | cons c cs =>
      rw [after?] at h
      split at h
      next same => rw [List.cons_append, ih h, same]
      next => cases h

end Text

namespace Grammar

open Text

theorem Gap.skip_nil (fuel : Nat) {pos : Nat} {fresh torn : Bool} {rs : List Remark} :
    Gap.skip fuel ⟨pos, [], fresh, rs, torn⟩ = ⟨pos, [], fresh, rs, torn⟩ := by
  cases fuel <;> rfl

theorem afterDigits?_suffix {p : Char → Bool} {seen : Bool} {cs rest : Text}
    (h : afterDigits? p seen cs = some rest) : rest <:+ cs := by
  fun_induction afterDigits? p seen cs with
  | case1 seen cs _ ih => exact (ih h).trans (List.suffix_cons _ _)
  | case2 => cases h
  | case3 seen c cs _ _ ih => exact (ih h).trans (List.suffix_cons _ _)
  | case4 => exact Option.some.inj h ▸ List.suffix_refl _
  | case5 => cases h
  | case6 => exact Option.some.inj h ▸ List.suffix_refl _
  | case7 => cases h

theorem afterExponent?_suffix {cs rest : Text} (h : afterExponent? cs = some rest) :
    rest <:+ cs := by
  unfold afterExponent? at h
  split at h <;>
    first
    | exact (afterDigits?_suffix h).trans (by simp [List.suffix_cons_iff])
    | exact Option.some.inj h ▸ List.suffix_refl _

theorem afterPoint?_suffix {cs rest : Text} (h : afterPoint? cs = some rest) : rest <:+ cs := by
  unfold afterPoint? at h
  split at h
  · obtain ⟨mid, digits, exponent⟩ := Option.bind_eq_some_iff.mp h
    exact (afterExponent?_suffix exponent).trans (afterDigits?_suffix digits)
  · exact afterExponent?_suffix h

theorem skipBig_suffix (cs : Text) : skipBig cs <:+ cs := by
  unfold skipBig
  split
  · exact List.suffix_cons _ _
  · exact List.suffix_refl _

theorem afterNumber?_suffix {cs rest : Text} (h : afterNumber? cs = some rest) : rest <:+ cs := by
  have based : ∀ {p : Char → Bool} {a b : Char} {tail : Text},
      (afterDigits? p false tail).map skipBig = some rest → rest <:+ a :: b :: tail := by
    intro p a b tail found
    obtain ⟨mid, digits, rfl⟩ := Option.map_eq_some_iff.mp found
    have inner := (skipBig_suffix mid).trans (afterDigits?_suffix digits)
    exact inner.trans ((List.suffix_cons _ _).trans (List.suffix_cons _ _))
  have pointed : ∀ {a : Char} {tail : Text}, afterPoint? tail = some rest → rest <:+ a :: tail :=
    fun found => (afterPoint?_suffix found).trans (List.suffix_cons _ _)
  unfold afterNumber? at h
  split at h
  case h_7 =>
    split at h
    · cases h
    · split at h
      · exact (pointed h).trans (List.suffix_cons _ _)
      · split at h
        · cases h
          exact (List.suffix_cons _ _).trans (List.suffix_cons _ _)
        · exact (afterExponent?_suffix h).trans (List.suffix_cons _ _)
  case h_8 => exact pointed h
  case h_9 =>
    split at h
    · rename_i digits
      cases h
      exact (List.suffix_cons _ _).trans (afterDigits?_suffix digits)
    · rename_i digits
      exact (pointed h).trans (afterDigits?_suffix digits)
    · rename_i digits
      exact (afterExponent?_suffix h).trans (afterDigits?_suffix digits)
    · cases h
  all_goals exact based h

theorem codePoint?_suffix {cs rest : Text} {n : Nat} (h : codePoint? cs = some (n, rest)) :
    rest <:+ cs := by
  unfold codePoint? at h
  split at h
  · rename_i cs
    dsimp only at h
    split at h
    · rename_i found
      split at h
      · cases h
        have closing := found ▸ List.drop_suffix (cs.takeWhile isHex).length cs
        exact (List.suffix_cons _ _).trans (closing.trans (List.suffix_cons _ _))
      · cases h
    · cases h
  · dsimp only at h
    split at h
    · cases h
      exact List.drop_suffix _ _
    · cases h

theorem afterEscape?_suffix {cs rest : Text} (h : afterEscape? cs = some rest) : rest <:+ cs := by
  unfold afterEscape? at h
  split at h
  · split at h
    · cases h
      exact ((List.suffix_cons _ _).trans (List.suffix_cons _ _)).trans (List.suffix_cons _ _)
    · cases h
  · cases h
  · obtain ⟨⟨n, rest'⟩, found, rfl⟩ := Option.map_eq_some_iff.mp h
    exact (codePoint?_suffix found).trans (List.suffix_cons _ _)
  · cases h
    exact (List.suffix_cons _ _).trans (List.suffix_cons _ _)
  · split at h
    · cases h
    · cases h
      exact List.suffix_cons _ _
  · split at h
    · cases h
    · cases h
      exact List.suffix_cons _ _
  · cases h

theorem afterString?_suffix {quote : Char} {fuel : Nat} {cs rest : Text}
    (h : afterString? quote fuel cs = some rest) : rest <:+ cs := by
  induction fuel generalizing cs with
  | zero => cases h
  | succ fuel ih =>
    cases cs with
    | nil => cases h
    | cons c cs =>
      rw [afterString?] at h
      split at h
      · cases h
        exact List.suffix_cons _ _
      · split at h
        · obtain ⟨mid, escape, found⟩ := Option.bind_eq_some_iff.mp h
          exact ((ih found).trans (afterEscape?_suffix escape)).trans (List.suffix_cons _ _)
        · split at h
          · cases h
          · exact (ih h).trans (List.suffix_cons _ _)

theorem templateRun?_suffix {fuel : Nat} {odd : Bool} {cs : Text} {run : TemplateRun}
    (h : templateRun? fuel odd cs = some run) : run.rest <:+ cs := by
  fun_induction templateRun? fuel odd cs with
  | case1 => cases h
  | case2 => cases h
  | case3 => cases h; exact List.suffix_cons _ _
  | case4 => cases h; exact (List.suffix_cons _ _).trans (List.suffix_cons _ _)
  | case5 fuel odd cs rest escape ih =>
    exact ((ih h).trans (afterEscape?_suffix escape)).trans (List.suffix_cons _ _)
  | case6 fuel odd cs _ ih => exact ((ih h).trans (List.drop_suffix _ _)).trans (List.suffix_cons _ _)
  | case7 fuel odd c cs _ _ _ ih => exact (ih h).trans (List.suffix_cons _ _)

theorem afterRegex?_suffix {inClass : Bool} {cs rest : Text}
    (h : afterRegex? inClass cs = some rest) : rest <:+ cs := by
  fun_induction afterRegex? inClass cs with
  | case1 => cases h
  | case2 => cases h
  | case3 inClass c cs _ ih =>
    exact (ih h).trans ((List.suffix_cons _ _).trans (List.suffix_cons _ _))
  | case4 => cases h
  | case5 => cases h; exact List.suffix_cons _ _
  | case6 inClass c cs _ _ _ _ ih => exact (ih h).trans (List.suffix_cons _ _)
  | case7 inClass c cs _ _ _ _ _ ih => exact (ih h).trans (List.suffix_cons _ _)
  | case8 inClass c cs _ _ _ _ _ ih => exact (ih h).trans (List.suffix_cons _ _)

theorem escapedWord?_suffix {fuel : Nat} {name cs name' rest : Text}
    (h : escapedWord? fuel name cs = some (name', rest)) : rest <:+ cs := by
  fun_induction escapedWord? fuel name cs with
  | case1 => cases h
  | case2 fuel name cs n mid point c _ ih =>
    exact ((ih h).trans (codePoint?_suffix point)).trans
      ((List.suffix_cons _ _).trans (List.suffix_cons _ _))
  | case3 => cases h
  | case4 => cases h
  | case5 => cases h
  | case6 fuel name c cs _ _ _ ih => exact (ih h).trans (List.suffix_cons _ _)
  | case7 => cases h; exact List.suffix_refl _
  | case8 => cases h; exact List.suffix_refl _

theorem firstSign?_spec {signs : List (Text × String)} {cs rest : Text} {sign : String}
    (spelled : ∀ e ∈ signs, e.1 = e.2.toList) (h : firstSign? signs cs = some (sign, rest)) :
    sign.toList ++ rest = cs := by
  obtain ⟨⟨s, name⟩, mem, found⟩ := List.exists_of_findSome?_eq_some h
  obtain ⟨rest', after, e⟩ := Option.map_eq_some_iff.mp found
  cases e
  have same : s = sign.toList := spelled _ mem
  exact same ▸ after?_suffix after

theorem signs_spelled : ∀ e ∈ signs, e.1 = e.2.toList := by
  intro e mem
  obtain ⟨_, -, rfl⟩ := List.mem_map.mp mem
  rfl

theorem greaterSigns_spelled : ∀ e ∈ greaterSigns, e.1 = e.2.toList := by
  intro e mem
  obtain ⟨_, -, rfl⟩ := List.mem_map.mp mem
  rfl

theorem sign?_spec {cs rest : Text} {sign : String} (h : sign? cs = some (sign, rest)) :
    sign.toList ++ rest = cs := by
  unfold sign? at h
  split at h
  · split at h
    · cases h
      rfl
    · cases h
      rfl
  · exact firstSign?_spec signs_spelled h

theorem read_cases (fresh : Bool) (cs : Text) :
    (Lexeme.read fresh cs).2 <:+ cs ∧
      ∀ sign, (Lexeme.read fresh cs).1 = .mark sign → sign.toList ++ (Lexeme.read fresh cs).2 = cs := by
  unfold Lexeme.read
  split
  · exact ⟨List.suffix_refl _, nofun⟩
  · rename_i c tail
    have bad : c :: tail <:+ c :: tail := List.suffix_refl _
    have behind : tail <:+ c :: tail := List.suffix_cons _ _
    dsimp only
    split
    · split
      · split
        · rename_i found
          exact ⟨escapedWord?_suffix found, nofun⟩
        · exact ⟨bad, nofun⟩
      · exact ⟨List.drop_suffix _ _, nofun⟩
    · split
      · split
        · rename_i found
          split
          · exact ⟨bad, nofun⟩
          · exact ⟨afterNumber?_suffix found, nofun⟩
        · exact ⟨bad, nofun⟩
      · split
        · refine ⟨?_, nofun⟩
          cases found : afterString? c (c :: tail).length tail with
          | none => exact bad
          | some rest => exact (afterString?_suffix found).trans behind
        · split
          · split
            · exact ⟨(List.drop_suffix _ _).trans behind, nofun⟩
            · exact ⟨bad, nofun⟩
          · split
            · exact ⟨bad, nofun⟩
            · split
              · rename_i sign rest found
                have spelled := sign?_spec found
                refine ⟨⟨_, spelled⟩, fun other same => ?_⟩
                cases same
                exact spelled
              · exact ⟨bad, nofun⟩

theorem afterQuoted?_suffix {cs rest : Text} (h : afterQuoted? cs = some rest) : rest <:+ cs := by
  unfold afterQuoted? at h
  split at h
  · rename_i quote cs
    split at h
    · split at h
      · rename_i found
        cases h
        have behind : _ :: rest <:+ cs := found ▸ List.drop_suffix _ _
        exact (List.suffix_cons _ _).trans (behind.trans (List.suffix_cons _ _))
      · cases h
    · cases h
  · cases h

theorem afterFlags?_suffix {cs rest : Text} (h : afterFlags? cs = some rest) : rest <:+ cs := by
  unfold afterFlags? at h
  dsimp only at h
  split at h
  · cases h
    exact List.drop_suffix _ _
  · cases h

theorem Reach.rest?_suffix {k : Token} {how : Reach} {rest : Text} (behind : k.rest <:+ k.here)
    (h : how.rest? k = some rest) : rest <:+ k.here := by
  cases how with
  | token | words =>
    cases h
    exact behind
  | operator =>
    rw [Reach.rest?] at h
    split at h <;> cases h
    · exact List.drop_suffix _ _
    · exact behind
  | less =>
    rw [Reach.rest?] at h
    split at h
    · rename_i same
      cases h
      exact same ▸ List.suffix_cons _ _
    · cases h
  | regex =>
    obtain ⟨mid, body, flags⟩ := Option.bind_eq_some_iff.mp h
    exact ((afterFlags?_suffix flags).trans (afterRegex?_suffix body)).trans (List.drop_suffix _ _)
  | tagName =>
    cases h
    exact List.drop_suffix _ _
  | quoted => exact afterQuoted?_suffix h
  | template =>
    obtain ⟨run, found, rfl⟩ := Option.map_eq_some_iff.mp h
    exact (templateRun?_suffix found).trans (List.drop_suffix _ _)

end Grammar
end Quell
