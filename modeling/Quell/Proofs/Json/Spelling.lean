import Mathlib.Data.List.DropRight
import Quell.Json.Read
import Quell.Json.Write

/-!
How a text spells a value.

`Spells` is the grammar of what the writer writes: blanks may stand in front of values, keys and
closing brackets, strings are escaped where they have to be, and numbers are those of whole numbers.
Both ways of writing follow it (`Plain.compact`, `Plain.prettyAt`), and a text that follows it is read
as the value that it spells (`Spells.read?_eq`). So nothing is lost between writing and reading.
-/
namespace Quell.Json

open Text

theorem unit?_control : ∀ n < 32, ∀ rest : Text,
    unit? ('0' :: '0' :: hexDigit (n / 16) :: hexDigit (n % 16) :: rest) = some (n, rest) := by
  have digits : ∀ n < 32, ['0', '0', hexDigit (n / 16), hexDigit (n % 16)].all isHex = true ∧
      hexValue ['0', '0', hexDigit (n / 16), hexDigit (n % 16)] = n := by decide
  intro n lt rest
  obtain ⟨hex, value⟩ := digits n lt
  simp only [unit?, List.take_succ_cons, List.take_zero, List.drop_succ_cons, List.drop_zero]
  rw [hex, value]
  rfl

theorem quotedChar_cases (c : Char) :
    (∃ d, quotedChar c = ['\\', d] ∧ d ≠ 'u' ∧ shortEscape? d = some c) ∨
    (c.toNat < 32 ∧ quotedChar c =
      ['\\', 'u', '0', '0', hexDigit (c.toNat / 16), hexDigit (c.toNat % 16)]) ∨
    (quotedChar c = [c] ∧ (c == '"') = false ∧ (c == '\\') = false ∧ ¬ c.toNat < 32) := by
  unfold quotedChar
  split_ifs with quote backslash feed ret tab back form control
  · exact .inl ⟨'"', rfl, by decide, by rw [eq_of_beq quote]; rfl⟩
  · exact .inl ⟨'\\', rfl, by decide, by rw [eq_of_beq backslash]; rfl⟩
  · exact .inl ⟨'n', rfl, by decide, by rw [eq_of_beq feed]; rfl⟩
  · exact .inl ⟨'r', rfl, by decide, by rw [eq_of_beq ret]; rfl⟩
  · exact .inl ⟨'t', rfl, by decide, by rw [eq_of_beq tab]; rfl⟩
  · exact .inl ⟨'b', rfl, by decide, by rw [eq_of_beq back]; rfl⟩
  · exact .inl ⟨'f', rfl, by decide, by rw [eq_of_beq form]; rfl⟩
  · exact .inr (.inl ⟨control, rfl⟩)
  · exact .inr (.inr ⟨rfl, by simpa using quote, by simpa using backslash, control⟩)

theorem stringTail?_quotedChar (fuel : Nat) (c : Char) (rest : Text) :
    stringTail? (fuel + 1) (quotedChar c ++ rest) =
      (stringTail? fuel rest).map fun (t, rest) => (t.map (c :: ·), rest) := by
  -- behind a backslash one escape is read
  have escaped : ∀ {tail : Text}, escape? tail = some (some c, rest) →
      stringTail? (fuel + 1) ('\\' :: tail) =
        (stringTail? fuel rest).map fun (t, rest) => (t.map (c :: ·), rest) := by
    intro tail h
    rw [stringTail?, if_neg (by decide), if_pos (by decide), h]
    rfl
  rcases quotedChar_cases c with ⟨d, written, letter, means⟩ | ⟨control, written⟩ |
    ⟨written, quote, backslash, control⟩
  · rw [written, List.cons_append]
    refine escaped ?_
    rw [List.singleton_append, escape?, means]
    · rfl
    · intro e
      exact letter e
  · rw [written, List.cons_append]
    refine escaped ?_
    have high : isHighHalf c.toNat = false := by simp [isHighHalf]; omega
    have low : isLowHalf c.toNat = false := by simp [isLowHalf]; omega
    simp only [List.cons_append, List.nil_append, escape?, unit?_control _ control, Option.map_some,
      unitChar, high, low, Char.ofNat_toNat]
    rfl
  · rw [written, List.singleton_append, stringTail?, quote, backslash]
    simp [control]

theorem stringTail?_quoted {fuel : Nat} (t rest : Text) (enough : t.length < fuel) :
    stringTail? fuel (t.flatMap quotedChar ++ '"' :: rest) = some (some t, rest) := by
  induction t generalizing fuel with
  | nil =>
    obtain ⟨fuel, rfl⟩ := Nat.exists_eq_add_of_lt enough
    rw [List.flatMap_nil, List.nil_append, stringTail?, if_pos (by rfl)]
  | cons c t ih =>
    obtain ⟨fuel, rfl⟩ := Nat.exists_eq_succ_of_ne_zero (Nat.ne_zero_of_lt enough)
    rw [List.flatMap_cons, List.append_assoc, stringTail?_quotedChar, ih (Nat.lt_of_succ_lt_succ enough)]
    rfl

theorem length_le_quoted (t : Text) : t.length ≤ (t.flatMap quotedChar).length := by
  induction t with
  | nil => exact Nat.le_refl 0
  | cons c t ih =>
    have some : 1 ≤ (quotedChar c).length := by
      rcases quotedChar_cases c with ⟨d, written, -⟩ | ⟨-, written⟩ | ⟨written, -⟩
      · simp [written]
      · simp [written]
      · simp [written]
    rw [List.flatMap_cons, List.length_cons, List.length_append]
    omega

theorem stringTail?_length (t rest : Text) :
    stringTail? ((t.flatMap quotedChar ++ '"' :: rest).length + 1)
      (t.flatMap quotedChar ++ '"' :: rest) = some (some t, rest) := by
  refine stringTail?_quoted t rest ?_
  have := length_le_quoted t
  rw [List.length_append]
  omega

def Stops (rest : Text) : Prop :=
  ∀ c ∈ rest.head?, c.isDigit = false ∧ c ≠ '.' ∧ (c == 'e') = false ∧ (c == 'E') = false

theorem isDigit_of_mem_ofNat {n : Nat} {c : Char} (h : c ∈ Text.ofNat n) : c.isDigit = true :=
  Nat.isDigit_of_mem_toDigits (by decide) (by decide) h

theorem ofNat_head {n : Nat} (pos : 0 < n) : ∃ d ds, Text.ofNat n = d :: ds ∧ d ≠ '0' := by
  induction n using Nat.strongRecOn with
  | _ n ih =>
    rcases Nat.lt_or_ge n 10 with small | large
    · exact ⟨_, [], Nat.toDigits_of_lt_base small, by simpa using Nat.ne_of_gt pos⟩
    · obtain ⟨d, ds, first, solid⟩ :=
        ih (n / 10) (Nat.div_lt_self pos (by decide)) (Nat.div_pos large (by decide))
      refine ⟨d, ds ++ [Nat.digitChar (n % 10)], ?_, solid⟩
      rw [Text.ofNat, Nat.toDigits_of_base_le (by decide) large]
      exact congrArg (· ++ _) first

theorem digits?_ofNat (n : Nat) {rest : Text} (stops : Stops rest) :
    digits? (Text.ofNat n ++ rest) = some (Text.ofNat n, rest) := by
  have taken : (Text.ofNat n ++ rest).takeWhile Char.isDigit = Text.ofNat n := by
    rw [List.takeWhile_append_of_pos fun _ => isDigit_of_mem_ofNat]
    cases rest with
    | nil => simp
    | cons c rest => simp [(stops c rfl).1]
  unfold digits?
  dsimp only
  rw [taken, if_neg (by simp [Text.ofNat]), List.drop_left]

theorem whole?_ofNat (n : Nat) {rest : Text} (stops : Stops rest) :
    whole? (Text.ofNat n ++ rest) = some (Text.ofNat n, rest) := by
  unfold whole?
  rw [digits?_ofNat n stops]
  split
  · rename_i zero
    rcases Nat.eq_zero_or_pos n with rfl | pos
    · cases zero
    · obtain ⟨d, ds, first, solid⟩ := ofNat_head pos
      rw [first] at zero
      cases zero
      exact absurd rfl solid
  · rfl

theorem number?_ofNat (n : Nat) {rest : Text} (stops : Stops rest) :
    number? (Text.ofNat n ++ rest) = some (Text.ofNat n, rest) := by
  have no_point : fraction? rest = some ([], rest) := by
    unfold fraction?
    split
    · exact absurd rfl (stops '.' rfl).2.1
    · rfl
  have no_mark : exponent? rest = some ([], rest) := by
    unfold exponent?
    split
    · rfl
    · rename_i c cs
      obtain ⟨-, -, lower, upper⟩ := stops c rfl
      simp [lower, upper]
  have unsigned : unsigned? (Text.ofNat n ++ rest) = some (Text.ofNat n, rest) := by
    unfold unsigned?
    rw [whole?_ofNat n stops, Option.bind_some]
    dsimp only
    rw [no_point, Option.bind_some]
    dsimp only
    rw [no_mark, Option.map_some, List.append_nil, List.append_nil]
  unfold number?
  split
  · rename_i cs signed
    have first : '-' ∈ Text.ofNat n := by
      cases digits : Text.ofNat n with
      | nil => exact absurd digits (by simp [Text.ofNat])
      | cons d ds =>
        rw [digits] at signed
        cases signed
        simp
    exact absurd (isDigit_of_mem_ofNat first) (by decide)
  · exact unsigned

theorem decimal_ofNat (n : Nat) : decimal (Text.ofNat n) = n := by
  induction n using Nat.strongRecOn with
  | _ n ih =>
    rcases Nat.lt_or_ge n 10 with small | large
    · rw [Text.ofNat, Nat.toDigits_of_lt_base small]
      simp only [decimal, List.foldl_cons, List.foldl_nil, Nat.mul_zero, Nat.zero_add]
      exact Nat.toNat_digitChar_sub_48_of_lt_ten small
    · have last : n % 10 < 10 := Nat.mod_lt n (by decide)
      have front := ih (n / 10) (Nat.div_lt_self (by omega) (by decide))
      rw [Text.ofNat, Nat.toDigits_of_base_le (by decide) large]
      unfold decimal at front ⊢
      rw [List.foldl_append]
      unfold Text.ofNat at front
      rw [front, List.foldl_cons, List.foldl_nil, Nat.toNat_digitChar_sub_48_of_lt_ten last]
      omega

theorem nat?_ofNat {limit n : Nat} (lt : n < limit) : (ofNat n).nat? limit = some n := by
  have all : (Text.ofNat n).all Char.isDigit = true :=
    List.all_eq_true.mpr fun _ => isDigit_of_mem_ofNat
  unfold ofNat nat?
  dsimp only
  rw [all, decimal_ofNat]
  simp [lt]

def IsGap (w : Text) : Prop := ∀ c ∈ w, isGap c = true

theorem isGap_nil : IsGap [] := nofun

mutual

inductive Spells : Json → Text → Prop
  | null : Spells null ['n', 'u', 'l', 'l']
  | yes : Spells (bool true) ['t', 'r', 'u', 'e']
  | no : Spells (bool false) ['f', 'a', 'l', 's', 'e']
  | number (n : Nat) : Spells (ofNat n) (Text.ofNat n)
  | string (t : Text) : Spells (ofText t) (quoted t)
  | emptyArray : Spells (array []) ['[', ']']
  | array {items : List Json} {t w : Text} : SpellsItems items t → IsGap w →
      Spells (array items) ('[' :: t ++ w ++ [']'])
  | emptyObject : Spells (object []) ['\x7b', '\x7d']
  | object {fields : List (Option Text × Json)} {t w : Text} : SpellsFields fields t → IsGap w →
      Spells (object fields) ('\x7b' :: t ++ w ++ ['\x7d'])

inductive SpellsItems : List Json → Text → Prop
  | one {j : Json} {w t : Text} : IsGap w → Spells j t → SpellsItems [j] (w ++ t)
  | more {j : Json} {items : List Json} {w t u : Text} : IsGap w → Spells j t → SpellsItems items u →
      SpellsItems (j :: items) (w ++ t ++ ',' :: u)

inductive SpellsFields : List (Option Text × Json) → Text → Prop
  | one {key : Text} {j : Json} {w v t : Text} : IsGap w → IsGap v → Spells j t →
      SpellsFields [(some key, j)] (w ++ quoted key ++ ':' :: (v ++ t))
  | more {key : Text} {j : Json} {fields : List (Option Text × Json)} {w v t u : Text} : IsGap w →
      IsGap v → Spells j t → SpellsFields fields u →
      SpellsFields ((some key, j) :: fields) (w ++ quoted key ++ ':' :: (v ++ t) ++ ',' :: u)

end

/-- What may stand behind a value. -/
def Ends (rest : Text) : Prop := ∀ c ∈ rest.head?, c = ',' ∨ c = ']' ∨ c = '\x7d' ∨ isGap c = true

theorem Ends.stops {rest : Text} (ends : Ends rest) : Stops rest := by
  intro c hc
  rcases ends c hc with rfl | rfl | rfl | gap
  · decide
  · decide
  · decide
  · unfold isGap at gap
    simp only [Bool.or_eq_true, beq_iff_eq] at gap
    rcases gap with ((rfl | rfl) | rfl) | rfl
    · decide
    · decide
    · decide
    · decide

theorem IsGap.ends {w rest : Text} (gap : IsGap w) {c : Char} (close : c = ',' ∨ c = ']' ∨ c = '\x7d') :
    Ends (w ++ c :: rest) := by
  intro d hd
  cases w with
  | nil =>
    cases hd
    tauto
  | cons x w =>
    cases hd
    exact .inr (.inr (.inr (gap d (by simp))))

theorem Ends.comma (rest : Text) : Ends (',' :: rest) := by
  rintro c ⟨⟩
  exact .inl rfl

theorem skipGap_append {w : Text} (gap : IsGap w) (t : Text) : skipGap (w ++ t) = skipGap t := by
  unfold skipGap
  exact List.dropWhile_append_of_pos gap

theorem skipGap_cons {c : Char} (solid : isGap c = false) (t : Text) : skipGap (c :: t) = c :: t := by
  unfold skipGap
  rw [List.dropWhile_cons_of_neg (by simp [solid])]

/-- A value starts with a sign that is neither a blank nor a closing bracket. -/
theorem Spells.head {j : Json} {t : Text} (h : Spells j t) :
    ∃ c u, t = c :: u ∧ isGap c = false ∧ c ≠ ']' ∧ c ≠ '\x7d' := by
  cases h with
  | number n =>
    cases digits : Text.ofNat n with
    | nil => exact absurd digits (by simp [Text.ofNat])
    | cons d ds =>
      have digit : d.isDigit = true := isDigit_of_mem_ofNat (n := n) (by rw [digits]; simp)
      refine ⟨d, ds, rfl, ?_, ?_, ?_⟩
      · by_contra gap
        have ends : Ends [d, ','] := IsGap.ends (w := [d]) (by simpa [IsGap] using gap) (.inl rfl)
        have stop := ends.stops d rfl
        exact absurd digit (by simp [stop.1])
      · rintro rfl
        exact absurd digit (by decide)
      · rintro rfl
        exact absurd digit (by decide)
  | _ => exact ⟨_, _, rfl, by decide, by decide, by decide⟩

theorem SpellsItems.head {items : List Json} {t : Text} (h : SpellsItems items t) (rest : Text) :
    ∃ c u, skipGap (t ++ rest) = c :: u ∧ isGap c = false ∧ c ≠ ']' := by
  have first : ∀ {j : Json} {w t : Text}, IsGap w → Spells j t → ∀ rest,
      ∃ c u, skipGap (w ++ (t ++ rest)) = c :: u ∧ isGap c = false ∧ c ≠ ']' := by
    intro j w t gap spells rest
    obtain ⟨c, u, rfl, solid, open', -⟩ := spells.head
    exact ⟨c, u ++ rest, by rw [skipGap_append gap, List.cons_append, skipGap_cons solid], solid, open'⟩
  cases h with
  | one gap spells =>
    rw [List.append_assoc]
    exact first gap spells rest
  | more gap spells later =>
    rw [List.append_assoc, List.append_assoc]
    exact first gap spells _

theorem SpellsFields.head {fields : List (Option Text × Json)} {t : Text} (h : SpellsFields fields t)
    (rest : Text) : ∃ u, skipGap (t ++ rest) = '"' :: u := by
  cases h with
  | one gap _ _ => exact ⟨_, by simp only [List.append_assoc, skipGap_append gap]; rfl⟩
  | more gap _ _ _ => exact ⟨_, by simp only [List.append_assoc, skipGap_append gap]; rfl⟩

/-- With a bound that grows with the text, each reader takes what the grammar spells, and stops
there. -/
structure Reads (fuel : Nat) : Prop where
  value : ∀ {j : Json} {t : Text}, Spells j t → 3 * t.length ≤ fuel → ∀ {w rest : Text}, IsGap w →
    Ends rest → value? fuel (w ++ (t ++ rest)) = some (j, rest)
  items : ∀ {js : List Json} {t : Text}, SpellsItems js t → 3 * t.length + 1 ≤ fuel →
    ∀ {w rest : Text}, IsGap w → items? fuel (t ++ (w ++ ']' :: rest)) = some (js, rest)
  members : ∀ {fs : List (Option Text × Json)} {t : Text}, SpellsFields fs t →
    3 * t.length + 2 ≤ fuel → ∀ {w rest : Text}, IsGap w →
    members? fuel (t ++ (w ++ '\x7d' :: rest)) = some (fs, rest)
  member : ∀ {key : Text} {j : Json} {t : Text}, Spells j t → 3 * t.length + 1 ≤ fuel →
    ∀ {w v rest : Text}, IsGap w → IsGap v → Ends rest →
    member? fuel (w ++ (quoted key ++ ':' :: (v ++ (t ++ rest)))) = some ((some key, j), rest)

theorem skipGap_skipGap (cs : Text) : skipGap (skipGap cs) = skipGap cs :=
  List.dropWhile_idempotent ..

theorem value?_skipGap (fuel : Nat) (cs : Text) : value? fuel (skipGap cs) = value? fuel cs := by
  cases fuel with
  | zero => rfl
  | succ fuel => rw [value?, value?, skipGap_skipGap]

theorem items?_skipGap (fuel : Nat) (cs : Text) : items? fuel (skipGap cs) = items? fuel cs := by
  cases fuel with
  | zero => rfl
  | succ fuel => rw [items?, items?, value?_skipGap]

theorem members?_skipGap (fuel : Nat) (cs : Text) : members? fuel (skipGap cs) = members? fuel cs := by
  cases fuel with
  | zero => rfl
  | succ fuel =>
    rw [members?, members?]
    cases fuel with
    | zero => rfl
    | succ fuel => rw [member?, member?, skipGap_skipGap]

theorem Spells.value?_eq {fuel : Nat} (reads : Reads fuel) {j : Json} {t : Text} (h : Spells j t)
    (enough : 3 * t.length ≤ fuel + 1) {rest : Text} (ends : Ends rest) :
    value? (fuel + 1) (t ++ rest) = some (j, rest) := by
  obtain ⟨c, u, split, solid, -, -⟩ := h.head
  have here : skipGap (t ++ rest) = t ++ rest := by
    rw [split, List.cons_append, skipGap_cons solid]
  rw [value?, here]
  cases h with
  | null => rfl
  | yes => rfl
  | no => rfl
  | emptyArray => rfl
  | emptyObject => rfl
  | string t =>
    have := stringTail?_length t rest
    simp only [quoted, List.cons_append, List.append_assoc, List.nil_append]
    rw [this]
    rfl
  | number n =>
    have number := number?_ofNat n ends.stops
    have digit : ∀ d ds, Text.ofNat n ++ rest = d :: ds → d.isDigit = true := by
      intro d ds e
      rw [split] at e
      cases e
      exact isDigit_of_mem_ofNat (n := n) (by rw [split]; simp)
    split
    · exact absurd (digit _ _ ‹_›) (by decide)
    · exact absurd (digit _ _ ‹_›) (by decide)
    · exact absurd (digit _ _ ‹_›) (by decide)
    · exact absurd (digit _ _ ‹_›) (by decide)
    · exact absurd (digit _ _ ‹_›) (by decide)
    · exact absurd (digit _ _ ‹_›) (by decide)
    · rw [number]
      rfl
  | @array items t w spells gap =>
    obtain ⟨d, v, skipped, -, open'⟩ := spells.head (w ++ ']' :: rest)
    have inner : items? fuel (t ++ (w ++ ']' :: rest)) = some (items, rest) :=
      reads.items spells (by simp at enough; omega) gap
    simp only [List.cons_append, List.append_assoc, List.nil_append]
    rw [skipped]
    split
    · rename_i e
      cases e
      exact absurd rfl open'
    · rw [← skipped, items?_skipGap, inner]
      rfl
  | @object fields t w spells gap =>
    obtain ⟨v, skipped⟩ := spells.head (w ++ '\x7d' :: rest)
    have inner : members? fuel (t ++ (w ++ '\x7d' :: rest)) = some (fields, rest) :=
      reads.members spells (by simp at enough; omega) gap
    simp only [List.cons_append, List.append_assoc, List.nil_append]
    rw [skipped]
    split
    · rename_i e
      cases e
    · rw [← skipped, members?_skipGap, inner]
      rfl

theorem reads (fuel : Nat) : Reads fuel := by
  induction fuel with
  | zero =>
    refine ⟨fun spells enough => ?_, fun _ enough => ?_, fun _ enough => ?_, fun _ enough => ?_⟩
    · obtain ⟨c, u, rfl, -⟩ := spells.head
      simp at enough
    · omega
    · omega
    · omega
  | succ fuel ih =>
    refine ⟨?_, ?_, ?_, ?_⟩
    · intro j t spells enough w rest gap ends
      rw [← value?_skipGap, skipGap_append gap, value?_skipGap]
      exact spells.value?_eq ih enough ends
    · intro items t spells enough w rest gap
      rw [items?]
      cases spells with
      | @one j w' t gap' spells =>
        rw [List.append_assoc, ih.value spells (by simp at enough; omega) gap' (gap.ends (by simp))]
        dsimp only
        rw [skipGap_append gap, skipGap_cons (by decide)]
        rfl
      | @more j items w' t u gap' spells later =>
        have inner : items? fuel (u ++ (w ++ ']' :: rest)) = some (items, rest) :=
          ih.items later (by simp at enough; omega) gap
        simp only [List.cons_append, List.append_assoc]
        rw [ih.value spells (by simp at enough; omega) gap' (.comma _)]
        dsimp only
        rw [skipGap_cons (by decide)]
        change (items? fuel (u ++ (w ++ ']' :: rest))).map _ = _
        rw [inner]
        rfl
    · intro fields t spells enough w rest gap
      rw [members?]
      cases spells with
      | @one key j w' v t gap' gap'' spells =>
        simp only [List.cons_append, List.append_assoc]
        rw [ih.member spells (by simp at enough; omega) gap' gap'' (gap.ends (by simp))]
        dsimp only
        rw [skipGap_append gap, skipGap_cons (by decide)]
        rfl
      | @more key j fields w' v t u gap' gap'' spells later =>
        have inner : members? fuel (u ++ (w ++ '\x7d' :: rest)) = some (fields, rest) :=
          ih.members later (by simp at enough; omega) gap
        simp only [List.cons_append, List.append_assoc]
        rw [ih.member spells (by simp at enough; omega) gap' gap'' (.comma _)]
        dsimp only
        rw [skipGap_cons (by decide)]
        change (members? fuel (u ++ (w ++ '\x7d' :: rest))).map _ = _
        rw [inner]
        rfl
    · intro key j t spells enough w v rest gap gap' ends
      rw [member?, skipGap_append gap]
      simp only [quoted, List.cons_append, List.append_assoc, List.nil_append]
      rw [skipGap_cons (by decide)]
      simp only [stringTail?_length]
      rw [skipGap_cons (by decide)]
      change (value? fuel (v ++ (t ++ rest))).map _ = _
      rw [ih.value spells (by omega) gap' ends]
      rfl

theorem Spells.read?_eq {j : Json} {t : Text} (h : Spells j t) : read? t = some j := by
  have value : value? (3 * t.length + 3) ([] ++ (t ++ [])) = some (j, []) :=
    (reads (3 * t.length + 3)).value h (by omega) isGap_nil nofun
  rw [List.nil_append, List.append_nil] at value
  unfold read?
  rw [value]
  rfl

inductive Plain : Json → Prop
  | null : Plain null
  | bool (b : Bool) : Plain (bool b)
  | number (n : Nat) : Plain (ofNat n)
  | string (t : Text) : Plain (ofText t)
  | array {items : List Json} : (∀ j ∈ items, Plain j) → Plain (array items)
  | object {fields : List (Option Text × Json)} : (∀ f ∈ fields, f.1.isSome = true) →
      (∀ f ∈ fields, Plain f.2) → Plain (object fields)

theorem Plain.ofFields {fields : List (String × Json)} (plain : ∀ f ∈ fields, Plain f.2) :
    Plain (ofFields fields) := by
  refine .object (fun f hf => ?_) fun f hf => ?_
  · obtain ⟨g, -, rfl⟩ := List.mem_map.mp hf
    rfl
  · obtain ⟨g, hg, rfl⟩ := List.mem_map.mp hf
    exact plain g hg

theorem Plain.ofTexts (ts : List Text) : Plain (ofTexts ts) := by
  refine .array fun j hj => ?_
  obtain ⟨t, -, rfl⟩ := List.mem_map.mp hj
  exact .string t

theorem Plain.ofOption {α : Type} {f : α → Json} (plain : ∀ a, Plain (f a)) (x : Option α) :
    Plain (ofOption f x) := by
  cases x with
  | none => exact .null
  | some a => exact plain a

theorem isGap_blank : IsGap [' '] := by
  simp [IsGap, isGap]

theorem isGap_newLine (level : Nat) : IsGap (newLine level) := by
  intro c hc
  rcases List.mem_cons.mp hc with rfl | hc
  · decide
  · rw [List.eq_of_mem_replicate hc]
    decide

theorem spells_items {gap : Text} (blank : IsGap gap) {print : Json → Text}
    (items : List Json → Text) (one : ∀ j, items [j] = gap ++ print j)
    (more : ∀ j k js, items (j :: k :: js) = gap ++ print j ++ ',' :: items (k :: js))
    {j : Json} {js : List Json} (h : ∀ i ∈ j :: js, Spells i (print i)) :
    SpellsItems (j :: js) (items (j :: js)) := by
  induction js generalizing j with
  | nil =>
    rw [one]
    exact .one blank (h j (by simp))
  | cons k js ih =>
    rw [more]
    exact .more blank (h j (by simp)) (ih fun i hi => h i (List.mem_cons_of_mem _ hi))

/-- Fields in a row are spelled, with one gap in front of each key and one in front of each
value. -/
theorem spells_fields {gap inner : Text} (blank : IsGap gap) (between : IsGap inner)
    {print : Json → Text} (fields : List (Option Text × Json) → Text)
    (one : ∀ key j, fields [(some key, j)] = gap ++ quoted key ++ ':' :: (inner ++ print j))
    (more : ∀ key j g fs, fields ((some key, j) :: g :: fs)
      = gap ++ quoted key ++ ':' :: (inner ++ print j) ++ ',' :: fields (g :: fs))
    {f : Option Text × Json} {fs : List (Option Text × Json)}
    (keys : ∀ g ∈ f :: fs, g.1.isSome = true) (h : ∀ g ∈ f :: fs, Spells g.2 (print g.2)) :
    SpellsFields (f :: fs) (fields (f :: fs)) := by
  induction fs generalizing f with
  | nil =>
    obtain ⟨key | key, j⟩ := f
    · exact absurd (keys (none, j) (by simp)) (by simp)
    · rw [one]
      exact .one blank between (h (some key, j) (by simp))
  | cons g fs ih =>
    have later := ih (fun i hi => keys i (List.mem_cons_of_mem _ hi))
      fun i hi => h i (List.mem_cons_of_mem _ hi)
    obtain ⟨key | key, j⟩ := f
    · exact absurd (keys (none, j) (by simp)) (by simp)
    · rw [more]
      exact .more blank between (h (some key, j) (by simp)) later

theorem Plain.compact {j : Json} (plain : Plain j) : Spells j (compact j) := by
  induction plain with
  | null => exact .null
  | bool b =>
    cases b with
    | true => exact .yes
    | false => exact .no
  | number n => exact .number n
  | string t => exact .string t
  | @array items _ ih =>
    cases items with
    | nil => exact .emptyArray
    | cons j js =>
      have spelled := Spells.array
        (spells_items isGap_nil compactItems (fun _ => rfl) (fun _ _ _ => rfl) ih) isGap_nil
      rwa [List.append_nil] at spelled
  | @object fields keys _ ih =>
    cases fields with
    | nil => exact .emptyObject
    | cons f fs =>
      have spelled := Spells.object
        (spells_fields isGap_nil isGap_nil compactFields (fun _ _ => rfl) (fun _ _ _ _ => rfl)
          keys ih) isGap_nil
      rwa [List.append_nil] at spelled

theorem Plain.prettyAt {j : Json} (plain : Plain j) (level : Nat) : Spells j (prettyAt level j) := by
  induction plain generalizing level with
  | null => exact .null
  | bool b =>
    cases b with
    | true => exact .yes
    | false => exact .no
  | number n => exact .number n
  | string t => exact .string t
  | @array items _ ih =>
    cases items with
    | nil => exact .emptyArray
    | cons j js =>
      have spelled := spells_items (isGap_newLine (level + 1)) (prettyItems (level + 1))
        (fun _ => rfl) (fun _ _ _ => rfl) fun i hi => ih i hi (level + 1)
      exact .array spelled (isGap_newLine level)
  | @object fields keys _ ih =>
    cases fields with
    | nil => exact .emptyObject
    | cons f fs =>
      have spelled := spells_fields (isGap_newLine (level + 1)) isGap_blank
        (prettyFields (level + 1)) (fun _ _ => rfl) (fun _ _ _ _ => rfl) keys
        fun g hg => ih g hg (level + 1)
      exact .object spelled (isGap_newLine level)

end Quell.Json
