import Mathlib.Tactic.IntervalCases
import Quell.Proofs.Grammar.Rest

/-!
What a token depends on.

A token ends at space, at the end of a line and at a comment, whatever that may be. So if a text
goes on behind such a place in another way, the tokens in front of it stay the same.
-/
namespace Quell.Grammar

open Text

def stopChars : List Char :=
  [0x9, 0xB, 0xC, 0x20, 0xA0, 0x1680, 0x2000, 0x2001, 0x2002, 0x2003, 0x2004, 0x2005, 0x2006, 0x2007,
   0x2008, 0x2009, 0x200A, 0x202F, 0x205F, 0x3000, 0xFEFF, 0xA, 0xD, 0x2028, 0x2029, 0x2F].map
    Char.ofNat

/-- A character that no token goes on with. -/
def IsStop (c : Char) : Prop := isSpace c = true ∨ isLineEnd c = true ∨ c = '/'

theorem IsStop.mem {c : Char} (h : IsStop c) : c ∈ stopChars := by
  have back : Char.ofNat c.toNat = c := Char.ofNat_toNat c
  rcases h with space | line | rfl
  · simp only [isSpace, inRanges, spaceRanges, List.any_cons, List.any_nil, Bool.or_false,
      Bool.or_eq_true, Bool.and_eq_true, decide_eq_true_eq] at space
    rw [← back]
    generalize c.toNat = n at space
    rcases space with h | h | h | h | h | h | h | h | h | h <;> obtain ⟨lo, hi⟩ := h <;>
      interval_cases n <;> decide
  · simp only [isLineEnd, Bool.or_eq_true, beq_iff_eq] at line
    rcases line with ((rfl | rfl) | rfl) | rfl <;> decide
  · decide

/-- Nothing that belongs to a token in front of it stands at the start of the text. -/
def Stops (y : Text) : Prop := ∀ c ∈ y.head?, IsStop c

/-- A test that every stop character fails. -/
def Misses (p : Char → Bool) : Prop := ∀ c, IsStop c → p c = false

theorem misses_of_stopChars {p : Char → Bool} (h : ∀ c ∈ stopChars, p c = false) : Misses p :=
  fun c stop => h c stop.mem

theorem misses_isNamePart : Misses isNamePart := misses_of_stopChars (by decide +kernel)
theorem misses_isNameStart : Misses isNameStart := misses_of_stopChars (by decide +kernel)
theorem misses_isDigit : Misses Char.isDigit := misses_of_stopChars (by decide)
theorem misses_isHex : Misses isHex := misses_of_stopChars (by decide)
theorem misses_isOctal : Misses isOctal := misses_of_stopChars (by decide)
theorem misses_isBinary : Misses isBinary := misses_of_stopChars (by decide)

theorem Stops.ne {c d : Char} {cs : Text} (h : Stops (c :: cs)) (hd : d ∉ stopChars) : c ≠ d := by
  rintro rfl
  exact hd (h c rfl).mem

section

variable {x y : Text} {p : Char → Bool}

theorem startsWithAny_append (hp : Misses p) (hy : Stops y) (x : Text) :
    startsWithAny p (x ++ y) = startsWithAny p x := by
  cases x with
  | cons c x => rfl
  | nil =>
    cases y with
    | nil => rfl
    | cons c y => exact hp c (hy c rfl)

theorem takeWhile_append (hp : Misses p) (hy : Stops y) (x : Text) :
    (x ++ y).takeWhile p = x.takeWhile p := by
  induction x with
  | cons c x ih => rw [List.cons_append, List.takeWhile_cons, List.takeWhile_cons, ih]
  | nil =>
    cases y with
    | nil => rfl
    | cons c y => rw [List.nil_append, List.takeWhile_cons, hp c (hy c rfl)]; rfl

theorem drop_takeWhile_append (hp : Misses p) (hy : Stops y) (x : Text) :
    (x ++ y).drop ((x ++ y).takeWhile p).length = x.drop (x.takeWhile p).length ++ y := by
  rw [takeWhile_append hp hy]
  exact List.drop_append_of_le_length (List.takeWhile_prefix p).length_le

/-! Numbers. -/

theorem afterDigits?_stop (hp : Misses p) (hy : Stops y) (seen : Bool) :
    afterDigits? p seen y = if seen then some y else none := by
  cases y with
  | nil => rw [afterDigits?]
  | cons c y =>
    rw [afterDigits?, hp c (hy c rfl)]
    · rfl
    · exact hy.ne (by decide)

theorem afterDigits?_append (hp : Misses p) (hy : Stops y) (x : Text) (seen : Bool) :
    afterDigits? p seen (x ++ y) = (afterDigits? p seen x).map (· ++ y) := by
  induction x generalizing seen with
  | nil =>
    rw [List.nil_append, afterDigits?_stop hp hy, afterDigits?]
    cases seen <;> rfl
  | cons c x ih =>
    rw [List.cons_append]
    by_cases low : c = '_'
    · subst low
      rw [afterDigits?, afterDigits?, startsWithAny_append hp hy]
      split
      · exact ih false
      · rfl
    · rw [afterDigits?, afterDigits?]
      · split
        · exact ih true
        · split <;> rfl
      · exact low
      · exact low

def isExponent (c : Char) : Bool := c == 'e' || c == 'E'

def isSigned (c : Char) : Bool := c == '+' || c == '-'

theorem misses_isExponent : Misses isExponent := misses_of_stopChars (by decide)
theorem misses_isSigned : Misses isSigned := misses_of_stopChars (by decide)

theorem startsWithAny_pair {a b : Char} {cs : Text} (first : ∀ t, cs = a :: t → False)
    (second : ∀ t, cs = b :: t → False) : startsWithAny (fun c => c == a || c == b) cs = false := by
  cases cs with
  | nil => rfl
  | cons c cs =>
    rw [startsWithAny, Bool.or_eq_false_iff]
    exact ⟨beq_false_of_ne fun e => first cs (e ▸ rfl), beq_false_of_ne fun e => second cs (e ▸ rfl)⟩

theorem afterExponent?_eq (cs : Text) : afterExponent? cs =
    if startsWithAny isExponent cs then
      afterDigits? Char.isDigit false
        (if startsWithAny isSigned (cs.drop 1) then cs.drop 2 else cs.drop 1)
    else some cs := by
  unfold afterExponent?
  split
  iterate 4 rfl
  · rename_i cs plus minus
    have unsigned : startsWithAny isSigned cs = false := startsWithAny_pair plus minus
    rw [List.drop_succ_cons, List.drop_zero, unsigned]
    rfl
  · rename_i cs plus minus
    have unsigned : startsWithAny isSigned cs = false := startsWithAny_pair plus minus
    rw [List.drop_succ_cons, List.drop_zero, unsigned]
    rfl
  · rename_i small large
    have plain : startsWithAny isExponent cs = false := startsWithAny_pair small large
    rw [plain]
    rfl

theorem afterExponent?_append (hy : Stops y) (x : Text) :
    afterExponent? (x ++ y) = (afterExponent? x).map (· ++ y) := by
  have digits := fun x => afterDigits?_append misses_isDigit hy x false
  rw [afterExponent?_eq, afterExponent?_eq, startsWithAny_append misses_isExponent hy]
  split
  next exponent =>
    cases x with
    | nil => cases exponent
    | cons c x =>
      simp only [List.cons_append, List.drop_succ_cons, List.drop_zero]
      rw [startsWithAny_append misses_isSigned hy]
      split
      next signed =>
        cases x with
        | nil => cases signed
        | cons d x => exact digits x
      next => exact digits x
  next => rfl

theorem afterPoint?_append (hy : Stops y) (x : Text) :
    afterPoint? (x ++ y) = (afterPoint? x).map (· ++ y) := by
  unfold afterPoint?
  rw [startsWithAny_append misses_isDigit hy]
  split
  · rw [afterDigits?_append misses_isDigit hy]
    cases afterDigits? Char.isDigit false x with
    | none => rfl
    | some z => exact afterExponent?_append hy z
  · exact afterExponent?_append hy x

theorem skipBig_append (hy : Stops y) (x : Text) : skipBig (x ++ y) = skipBig x ++ y := by
  cases x with
  | nil =>
    rw [List.nil_append, skipBig, skipBig, List.nil_append]
    · exact nofun
    · exact fun cs e => (e ▸ hy : Stops ('n' :: cs)).ne (by decide) rfl
  | cons c x =>
    by_cases big : c = 'n'
    · subst big
      rfl
    · rw [List.cons_append, skipBig, skipBig, List.cons_append]
      · exact fun cs e => big (List.cons.inj e).1
      · exact fun cs e => big (List.cons.inj e).1

theorem based_append (hp : Misses p) (hy : Stops y) (x : Text) :
    (afterDigits? p false (x ++ y)).map skipBig =
      ((afterDigits? p false x).map skipBig).map (· ++ y) := by
  rw [afterDigits?_append hp hy, Option.map_map, Option.map_map]
  congr 1
  exact funext fun z => skipBig_append hy z

theorem afterNumber?_zero (c : Char) (cs : Text) : afterNumber? ('0' :: c :: cs) =
    if c = 'x' ∨ c = 'X' then (afterDigits? isHex false cs).map skipBig
    else if c = 'o' ∨ c = 'O' then (afterDigits? isOctal false cs).map skipBig
    else if c = 'b' ∨ c = 'B' then (afterDigits? isBinary false cs).map skipBig
    else if c.isDigit || c == '_' then none
    else if c == '.' then afterPoint? cs
    else if c == 'n' then some cs
    else afterExponent? (c :: cs) := by
  unfold afterNumber?
  split <;> simp_all

theorem afterNumber?_zero_stop (hy : Stops y) : afterNumber? ('0' :: y) = some y := by
  cases y with
  | nil => rfl
  | cons c y =>
    have ne : ∀ d ∉ stopChars, ¬ c = d := fun _ => hy.ne
    have exponent : startsWithAny isExponent (c :: y) = false := misses_isExponent c (hy c rfl)
    rw [afterNumber?_zero, misses_isDigit c (hy c rfl), afterExponent?_eq, exponent]
    simp [ne 'x' (by decide), ne 'X' (by decide), ne 'o' (by decide), ne 'O' (by decide),
      ne 'b' (by decide), ne 'B' (by decide), ne '_' (by decide), ne '.' (by decide),
      ne 'n' (by decide)]

theorem afterNumber?_else {c : Char} {cs : Text} (zero : c ≠ '0') (point : c ≠ '.') :
    afterNumber? (c :: cs) = (afterDigits? Char.isDigit false (c :: cs)).bind fun rest =>
      if startsWithAny (· == 'n') rest then some (rest.drop 1)
      else if startsWithAny (· == '.') rest then afterPoint? (rest.drop 1)
      else afterExponent? rest := by
  unfold afterNumber?
  split
  iterate 7
    next e => exact absurd (List.cons.inj e).1 zero
  next e => exact absurd (List.cons.inj e).1 point
  cases afterDigits? Char.isDigit false (c :: cs) with
  | none => rfl
  | some rest =>
    rw [Option.bind_some]
    cases rest with
    | nil => rfl
    | cons d rest =>
      rw [startsWithAny, startsWithAny]
      by_cases big : d = 'n'
      · subst big
        rfl
      by_cases dot : d = '.'
      · subst dot
        rfl
      simp [big, dot]

theorem afterNumber?_append (hy : Stops y) (c : Char) (x : Text) :
    afterNumber? (c :: x ++ y) = (afterNumber? (c :: x)).map (· ++ y) := by
  rw [List.cons_append]
  by_cases point : c = '.'
  · subst point
    exact afterPoint?_append hy x
  by_cases zero : c = '0'
  · subst zero
    cases x with
    | nil =>
      rw [List.nil_append, afterNumber?_zero_stop hy]
      rfl
    | cons d x =>
      rw [List.cons_append, afterNumber?_zero, afterNumber?_zero]
      repeat' split
      · exact based_append misses_isHex hy x
      · exact based_append misses_isOctal hy x
      · exact based_append misses_isBinary hy x
      · rfl
      · exact afterPoint?_append hy x
      · rfl
      · exact afterExponent?_append hy (d :: x)
  · have digits := afterDigits?_append misses_isDigit hy (c :: x) false
    rw [List.cons_append] at digits
    rw [afterNumber?_else zero point, afterNumber?_else zero point, digits]
    have big : Misses (· == 'n') := misses_of_stopChars (by decide)
    have dot : Misses (· == '.') := misses_of_stopChars (by decide)
    cases afterDigits? Char.isDigit false (c :: x) with
    | none => rfl
    | some z =>
      simp only [Option.map_some, Option.bind_some]
      rw [startsWithAny_append big hy, startsWithAny_append dot hy]
      split
      next starts =>
        cases z with
        | nil => cases starts
        | cons d z => rfl
      next =>
        split
        next starts =>
          cases z with
          | nil => cases starts
          | cons d z => exact afterPoint?_append hy z
        next => exact afterExponent?_append hy z

/-! Names. -/

/-- Four digits of a number do not reach over the place. -/
theorem take_stop (hp : Misses p) (hy : Stops y) {x : Text} {n : Nat} (short : x.length < n) :
    ¬(((x ++ y).take n).length = n ∧ ((x ++ y).take n).all p = true) := by
  rintro ⟨full, all⟩
  cases y with
  | nil =>
    rw [List.append_nil, List.length_take] at full
    omega
  | cons c y =>
    have mem : c ∈ (x ++ c :: y).take n := by
      rw [List.take_append, List.mem_append]
      refine .inr ?_
      obtain ⟨m, e⟩ := Nat.exists_eq_add_of_lt short
      rw [show n - x.length = m + 1 by omega, List.take_succ_cons]
      exact List.mem_cons_self
    rw [List.all_eq_true] at all
    exact Bool.false_ne_true ((hp c (hy c rfl)).symm.trans (all c mem))

theorem codePoint?_four {cs : Text} (brace : ∀ t, cs = '\x7b' :: t → False) : codePoint? cs =
    if (cs.take 4).length = 4 ∧ (cs.take 4).all isHex then some (hexValue (cs.take 4), cs.drop 4)
    else none := by
  unfold codePoint?
  split
  next t => exact absurd rfl (brace t)
  next => simp only [Bool.and_eq_true, decide_eq_true_eq]

theorem codePoint?_brace (cs : Text) : codePoint? ('\x7b' :: cs) =
    if startsWithAny (· == '\x7d') (cs.drop (cs.takeWhile isHex).length) ∧
        (!(cs.takeWhile isHex).isEmpty && hexValue (cs.takeWhile isHex) ≤ 0x10FFFF) then
      some (hexValue (cs.takeWhile isHex), (cs.drop (cs.takeWhile isHex).length).drop 1)
    else none := by
  rw [codePoint?]
  cases cs.drop (cs.takeWhile isHex).length with
  | nil => rfl
  | cons d rest =>
    by_cases brace : d = '\x7d'
    · subst brace
      simp [startsWithAny]
    · simp [startsWithAny, brace]

theorem codePoint?_append (hy : Stops y) (x : Text) :
    codePoint? (x ++ y) = (codePoint? x).map fun (n, r) => (n, r ++ y) := by
  have four : (∀ z, x ++ y = '\x7b' :: z → False) → (∀ z, x = '\x7b' :: z → False) →
      codePoint? (x ++ y) = (codePoint? x).map fun (n, r) => (n, r ++ y) := by
    intro brace brace'
    rw [codePoint?_four brace, codePoint?_four brace']
    rcases Nat.lt_or_ge x.length 4 with short | long
    · have fails := take_stop misses_isHex (show Stops [] from nofun) short
      rw [List.append_nil] at fails
      rw [if_neg (take_stop misses_isHex hy short), if_neg fails]
      rfl
    · rw [List.take_append_of_le_length long, List.drop_append_of_le_length long]
      split <;> rfl
  have closes : Misses (· == '\x7d') := misses_of_stopChars (by decide)
  cases x with
  | nil => exact four (fun z e => (e ▸ hy : Stops ('\x7b' :: z)).ne (by decide) rfl) nofun
  | cons c x =>
    by_cases brace : c = '\x7b'
    · subst brace
      rw [List.cons_append, codePoint?_brace, codePoint?_brace,
        drop_takeWhile_append misses_isHex hy, takeWhile_append misses_isHex hy,
        startsWithAny_append closes hy]
      split
      next fits =>
        cases rest : x.drop (x.takeWhile isHex).length with
        | nil =>
          rw [rest] at fits
          cases fits.1
        | cons d r => rfl
      next => rfl
    · exact four (fun z e => brace (List.cons.inj e).1) fun z e => brace (List.cons.inj e).1

theorem escapedWord?_slash (fuel : Nat) (name cs : Text) :
    escapedWord? (fuel + 1) name ('\\' :: cs) =
      if startsWithAny (· == 'u') cs then
        match codePoint? (cs.drop 1) with
        | some (n, rest) =>
          if isNamePart (Char.ofNat n) && (!name.isEmpty || isNameStart (Char.ofNat n)) then
            escapedWord? fuel (Char.ofNat n :: name) rest
          else none
        | none => none
      else none := by
  cases cs with
  | nil => rfl
  | cons c cs =>
    by_cases u : c = 'u'
    · subst u
      rw [escapedWord?]
      rfl
    · have plain : startsWithAny (· == 'u') (c :: cs) = false := beq_false_of_ne u
      rw [plain, escapedWord?]
      · rfl
      · exact fun _ t e => u (List.cons.inj e).1

theorem escapedWord?_plain {c : Char} (slash : c ≠ '\\') (fuel : Nat) (name cs : Text) :
    escapedWord? (fuel + 1) name (c :: cs) =
      if isNamePart c then escapedWord? fuel (c :: name) cs else some (name, c :: cs) := by
  rw [escapedWord?]
  · rw [if_neg (by simpa using slash)]
  · exact fun cs' e _ => slash e

theorem escapedWord?_stop (hy : Stops y) (fuel : Nat) (name : Text) :
    escapedWord? (fuel + 1) name y = some (name, y) := by
  cases y with
  | nil => rfl
  | cons c y =>
    rw [escapedWord?_plain (hy.ne (by decide)), misses_isNamePart c (hy c rfl)]
    rfl

theorem escapedWord?_append (hy : Stops y) {fuel fuel' : Nat} {name x : Text}
    (le : x.length < fuel) (le' : x.length < fuel') :
    escapedWord? fuel name (x ++ y) =
      (escapedWord? fuel' name x).map fun (name, r) => (name, r ++ y) := by
  have starts : Misses (· == 'u') := misses_of_stopChars (by decide)
  induction fuel generalizing fuel' name x with
  | zero => exact absurd le (Nat.not_lt_zero _)
  | succ fuel ih =>
    obtain ⟨fuel', rfl⟩ := Nat.exists_eq_succ_of_ne_zero (Nat.ne_of_gt (Nat.zero_lt_of_lt le'))
    cases x with
    | nil =>
      rw [List.nil_append, escapedWord?_stop hy]
      rfl
    | cons c x =>
      rw [List.length_cons] at le le'
      rw [List.cons_append]
      by_cases slash : c = '\\'
      · subst slash
        rw [escapedWord?_slash, escapedWord?_slash, startsWithAny_append starts hy]
        split
        next u =>
          cases x with
          | nil => cases u
          | cons d x =>
            simp only [List.cons_append, List.drop_succ_cons, List.drop_zero]
            rw [codePoint?_append hy]
            cases point : codePoint? x with
            | none => rfl
            | some out =>
              obtain ⟨n, z⟩ := out
              have shorter := (codePoint?_suffix point).length_le
              rw [List.length_cons] at le le'
              dsimp only [Option.map_some]
              split
              · exact ih (by omega) (by omega)
              · rfl
        next => rfl
      · rw [escapedWord?_plain slash, escapedWord?_plain slash]
        split
        · exact ih (by omega) (by omega)
        · rfl

/-! Signs. -/

theorem after?_stop (hy : Stops y) {s : Text} (inner : ∀ c ∈ s.drop 1, c ∉ stopChars) (c : Char)
    (x : Text) : after? s (c :: x ++ y) = (after? s (c :: x)).map (· ++ y) := by
  have tail : ∀ (s x : Text), (∀ c ∈ s, c ∉ stopChars) →
      after? s (x ++ y) = (after? s x).map (· ++ y) := by
    intro s
    induction s with
    | nil => exact fun x _ => rfl
    | cons d s ih =>
      intro x out
      cases x with
      | nil =>
        cases y with
        | nil => rfl
        | cons e y =>
          rw [List.nil_append, after?, after?, if_neg]
          · rfl
          · exact fun same => hy.ne (out d List.mem_cons_self) same.symm
      | cons e x =>
        rw [List.cons_append, after?, after?, ih x fun c mem => out c (List.mem_cons_of_mem d mem)]
        split <;> rfl
  cases s with
  | nil => rfl
  | cons d s =>
    rw [List.cons_append, after?, after?, tail s x inner]
    split <;> rfl


theorem signs_inner : ∀ e ∈ signs, ∀ c ∈ e.1.drop 1, c ∉ stopChars := by decide

theorem firstSign?_append (hy : Stops y) (c : Char) (x : Text) {es : List (Text × String)}
    (inner : ∀ e ∈ es, ∀ c ∈ e.1.drop 1, c ∉ stopChars) :
    firstSign? es (c :: x ++ y) =
      (firstSign? es (c :: x)).map fun (name, rest) => (name, rest ++ y) := by
  unfold firstSign?
  induction es with
  | nil => rfl
  | cons e es ih =>
    obtain ⟨s, name⟩ := e
    rw [List.findSome?_cons, List.findSome?_cons,
      ih fun e mem => inner e (List.mem_cons_of_mem _ mem)]
    dsimp only
    rw [after?_stop hy (inner _ List.mem_cons_self) c x]
    cases after? s (c :: x) <;> rfl

theorem sign?_plain {cs : Text} (plain : ∀ d t, cs = '?' :: '.' :: d :: t → False) :
    sign? cs = firstSign? signs cs := by
  unfold sign?
  split
  next d t => exact absurd rfl (plain d t)
  next => rfl

theorem sign?_question_point (d : Char) (cs : Text) : sign? ('?' :: '.' :: d :: cs) =
    if d.isDigit then some ("?", '.' :: d :: cs) else some ("?.", d :: cs) := rfl

theorem sign?_append (hy : Stops y) (c : Char) (x : Text) :
    sign? (c :: x ++ y) = (sign? (c :: x)).map fun (name, rest) => (name, rest ++ y) := by
  have plain : (∀ d t, c :: x ++ y = '?' :: '.' :: d :: t → False) →
      sign? (c :: x ++ y) = (sign? (c :: x)).map fun (name, rest) => (name, rest ++ y) := by
    intro plain
    rw [sign?_plain plain, sign?_plain fun d t e => plain d (t ++ y) (by rw [e]; rfl)]
    exact firstSign?_append hy c x signs_inner
  match x with
  | [] =>
    refine plain fun d t e => ?_
    obtain ⟨-, e⟩ := List.cons.inj e
    exact (e ▸ hy : Stops ('.' :: d :: t)).ne (by decide) rfl
  | [d] =>
    by_cases point : c = '?' ∧ d = '.'
    · obtain ⟨rfl, rfl⟩ := point
      cases y with
      | nil => rfl
      | cons e y =>
        show sign? ('?' :: '.' :: e :: y) = _
        rw [sign?_question_point, misses_isDigit e (hy e rfl)]
        rfl
    · refine plain fun e t same => point ?_
      cases same
      exact ⟨rfl, rfl⟩
  | d :: e :: x =>
    by_cases point : c = '?' ∧ d = '.'
    · obtain ⟨rfl, rfl⟩ := point
      show sign? ('?' :: '.' :: e :: (x ++ y)) = _
      rw [sign?_question_point, sign?_question_point]
      split <;> rfl
    · refine plain fun e t same => point ?_
      cases same
      exact ⟨rfl, rfl⟩

theorem startsWith_stop (hy : Stops y) {s : Text} (inner : ∀ c ∈ s.drop 1, c ∉ stopChars) (c : Char)
    (x : Text) : startsWith s (c :: x ++ y) = startsWith s (c :: x) := by
  unfold startsWith
  rw [after?_stop hy inner, Option.isSome_map]

theorem isRelicComment_append (hy : Stops y) (fresh : Bool) (c : Char) (x : Text) :
    isRelicComment fresh (c :: x ++ y) = isRelicComment fresh (c :: x) := by
  unfold isRelicComment
  rw [startsWith_stop hy (by decide), startsWith_stop hy (by decide)]

theorem misses_numberEnd : Misses fun d => isNameStart d || d.isDigit || d == '\\' := fun d stop => by
  dsimp only
  rw [misses_isNameStart d stop, misses_isDigit d stop]
  exact beq_false_of_ne fun e => (by decide : '\\' ∉ stopChars) (e ▸ stop.mem)

/-- A lexeme and what follows it, with a text behind. -/
def behindLexeme (y : Text) (out : Lexeme × Text) : Lexeme × Text := (out.1, out.2 ++ y)

/-- What is read at the start of a text does not depend on what stands behind a stop, except for where
a string ends. -/
theorem Lexeme.read_append (hy : Stops y) (fresh : Bool) (c : Char) (x : Text) :
    Lexeme.read fresh (c :: x ++ y) = behindLexeme y (Lexeme.read fresh (c :: x)) ∨
      (Lexeme.read fresh (c :: x ++ y)).1 = .quoted ∧ (Lexeme.read fresh (c :: x)).1 = .quoted := by
  have slash : Misses (· == '\\') := misses_of_stopChars (by decide)
  have names := drop_takeWhile_append misses_isNamePart hy
  have run := takeWhile_append misses_isNamePart hy
  rw [List.cons_append]
  unfold Lexeme.read
  dsimp only
  by_cases word : (isNameStart c || c == '\\') = true
  · refine .inl ?_
    have rest := names (c :: x)
    have name := run (c :: x)
    rw [List.cons_append] at rest name
    rw [if_pos word, if_pos word, rest, name, startsWithAny_append slash hy]
    split
    · have enough : (c :: x).length < (c :: (x ++ y)).length + 1 := by
        simp only [List.length_cons, List.length_append]
        omega
      have escaped : escapedWord? _ [] (c :: x ++ y) = _ :=
        escapedWord?_append hy enough (Nat.lt_succ_self (c :: x).length)
      rw [List.cons_append] at escaped
      rw [escaped]
      cases escapedWord? ((c :: x).length + 1) [] (c :: x) <;> rfl
    · rfl
  rw [if_neg word, if_neg word, startsWithAny_append misses_isDigit hy]
  by_cases number : (c.isDigit || (c == '.' && startsWithAny Char.isDigit x)) = true
  · refine .inl ?_
    have after := afterNumber?_append hy c x
    rw [List.cons_append] at after
    rw [if_pos number, if_pos number, after]
    cases afterNumber? (c :: x) with
    | none => rfl
    | some rest =>
      dsimp only [Option.map_some]
      rw [startsWithAny_append misses_numberEnd hy]
      split <;> rfl
  rw [if_neg number, if_neg number]
  by_cases quote : (c == '"' || c == '\'') = true
  · rw [if_pos quote, if_pos quote]
    exact .inr ⟨rfl, rfl⟩
  refine .inl ?_
  rw [if_neg quote, if_neg quote]
  by_cases hash : (c == '#') = true
  · rw [if_pos hash, if_pos hash, startsWithAny_append misses_isNameStart hy, names]
    split <;> rfl
  rw [if_neg hash, if_neg hash]
  have relic := isRelicComment_append hy fresh c x
  have sign := sign?_append hy c x
  rw [List.cons_append] at relic sign
  rw [relic, sign]
  split
  · rfl
  · cases sign? (c :: x) <;> rfl

end

end Quell.Grammar
