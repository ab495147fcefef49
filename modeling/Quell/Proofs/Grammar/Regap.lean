import Quell.Proofs.Grammar.Front

/-!
Another gap between two tokens.

If a gap between two tokens is replaced by another one after which a line is as fresh as before, the
same is read: every reading on the course has a counterpart that shows the same and takes the same
(`Regap.likeness`). Types apart, so does the whole run (`Regap.run`).
-/
namespace Quell.Grammar

open Text

def Stretch.shift (m : Nat) (x : Stretch) : Stretch := { x with lo := x.lo + m, hi := x.hi + m }

def Remark.shift (m : Nat) (r : Remark) : Remark := { r with lo := r.lo + m, hi := r.hi + m }

/-! Tokens of one text at two places. -/

/-- The same token `m` bytes farther on, behind other comments. -/
structure Carried (m : Nat) (k k' : Token) : Prop where
  lexeme : k'.lexeme = k.lexeme
  fresh : k'.fresh = k.fresh
  here : k'.here = k.here
  rest : k'.rest = k.rest
  lo : k'.lo = k.lo + m
  hi : k'.hi = k.hi + m

def Gap.shift (m : Nat) (g : Gap) : Gap :=
  { g with pos := g.pos + m, remarks := g.remarks.map (Remark.shift m) }

theorem Gap.skip_shift (m fuel : Nat) (g : Gap) :
    Gap.skip fuel (g.shift m) = (Gap.skip fuel g).shift m := by
  induction fuel generalizing g with
  | zero => rfl
  | succ fuel ih =>
    have skip : ∀ pos rest fresh rs torn,
        Gap.skip fuel ⟨pos + m, rest, fresh, rs.map (Remark.shift m), torn⟩ =
          (Gap.skip fuel ⟨pos, rest, fresh, rs, torn⟩).shift m := fun pos rest fresh rs torn =>
          ih ⟨pos, rest, fresh, rs, torn⟩
    have swap : ∀ a b : Nat, a + m + b = a + b + m := fun a b => Nat.add_right_comm a m b
    obtain ⟨pos, rest, fresh, rs, torn⟩ := g
    cases rest with
    | nil => rfl
    | cons c cs =>
      unfold Gap.shift
      rw [Gap.skip_cons, Gap.skip_cons]
      split
      · dsimp only
        rw [swap, swap]
        exact skip _ _ _ (⟨.line, _, pos, _⟩ :: rs) _
      · split
        · cases splitOnce? ['*', '/'] (cs.drop 1) with
          | none => rfl
          | some parts =>
            dsimp only
            rw [swap, swap]
            exact skip _ _ _ (⟨.block, _, pos, _⟩ :: rs) _
        · split
          · rw [swap]
            exact skip _ _ _ rs _
          · split
            · rw [swap]
              exact skip _ _ _ rs _
            · rfl

theorem next_shift (m pos : Nat) (rest : Text) (fresh : Bool) :
    Carried m (Token.next pos rest fresh) (Token.next (pos + m) rest fresh) ∧
      (Token.next (pos + m) rest fresh).remarks =
        (Token.next pos rest fresh).remarks.map (Remark.shift m) := by
  have shift : Gap.skip rest.length { pos := pos + m, rest, fresh } = _ :=
    Gap.skip_shift m rest.length { pos, rest, fresh }
  unfold Token.next
  rw [shift]
  unfold Gap.shift
  dsimp only
  split
  · exact ⟨⟨rfl, rfl, rfl, rfl, rfl, rfl⟩, rfl⟩
  · exact ⟨⟨rfl, rfl, rfl, rfl, rfl, Nat.add_right_comm _ _ _⟩, rfl⟩

namespace Carried

variable {m : Nat} {k k' : Token} {how : Reach}

theorem operator_eq (carried : Carried m k k') : k'.operator = k.operator := by
  unfold Token.operator
  rw [carried.lexeme, carried.here]

theorem reach_eq (carried : Carried m k k') : how.rest? k' = how.rest? k := by
  cases how with
  | operator => rw [Reach.rest?, Reach.rest?, carried.operator_eq, carried.here, carried.rest]
  | token | words => rw [Reach.rest?, Reach.rest?, carried.rest]
  | less | regex | tagName | quoted | template => rw [Reach.rest?, Reach.rest?, carried.here]

end Carried

/-! What a reading shows. -/

/-- Two tokens, or none, look the same. -/
def SameLook (a b : Option Token) : Prop :=
  b.map (fun k => (k.lexeme, k.fresh)) = a.map fun k => (k.lexeme, k.fresh)

theorem SameLook.glimpse {a b : Option Token} (same : SameLook a b) {s t : Reading}
    (stretches : s.stretches.length = t.stretches.length) : s.glimpse a = t.glimpse b := by
  unfold Reading.glimpse
  rw [stretches]
  cases a with
  | none =>
    cases b with
    | none => rfl
    | some k' => cases same
  | some k =>
    cases b with
    | none => cases same
    | some k' =>
      obtain ⟨lexeme, fresh⟩ := Prod.mk.inj (Option.some.inj same)
      dsimp only at lexeme fresh ⊢
      rw [lexeme, fresh]

open Reading

theorem following?_congr {k k' : Token} (lexeme : k'.lexeme = k.lexeme)
    (next : isFirm k.lexeme = true →
      SameLook (some (Token.next k.hi k.rest false)) (some (Token.next k'.hi k'.rest false))) :
    SameLook (following? k) (following? k') := by
  unfold following?
  rw [lexeme]
  split
  next firm => exact next firm
  next => rfl

theorem Carried.sameLook {m : Nat} {k k' : Token} (carried : Carried m k k') :
    SameLook (some k) (some k') := congrArg some (Prod.ext carried.lexeme carried.fresh)

theorem Carried.next {m : Nat} {k k' : Token} (carried : Carried m k k') :
    Carried m (Token.next k.hi k.rest false) (Token.next k'.hi k'.rest false) := by
  rw [carried.hi, carried.rest]
  exact (next_shift m k.hi k.rest false).1

theorem Carried.following? {m : Nat} {k k' : Token} (carried : Carried m k k') :
    SameLook (Reading.following? k) (Reading.following? k') :=
  following?_congr carried.lexeme fun _ => carried.next.sameLook

theorem following?_of_firm {k : Token} (firm : isFirm k.lexeme = true) :
    following? k = some (Token.next k.hi k.rest false) := if_pos firm

theorem following?_of_not_firm {k : Token} (plain : isFirm k.lexeme = false) : following? k = none :=
  if_neg (Bool.not_eq_true _ ▸ plain)

theorem Carried.following_twice {m : Nat} {k k' : Token} (carried : Carried m k k') :
    SameLook ((Reading.following? k).bind Reading.following?)
      ((Reading.following? k').bind Reading.following?) := by
  cases firm : isFirm k.lexeme with
  | true =>
    rw [following?_of_firm firm, following?_of_firm (carried.lexeme ▸ firm)]
    exact carried.next.following?
  | false =>
    rw [following?_of_not_firm firm, following?_of_not_firm (carried.lexeme ▸ firm)]
    rfl

theorem isFirm_iff {l : Lexeme} : isFirm l = true ↔
    (∃ name escaped, l = .word name escaped) ∨ ∃ sign ∈ ["?", "<", "\x7b"], l = .mark sign := by
  unfold isFirm
  split <;> simp_all

theorem read_word {fresh : Bool} {c : Char} {cs : Text} {name : String} {escaped : Bool}
    (h : (Lexeme.read fresh (c :: cs)).1 = .word name escaped) :
    (isNameStart c || c == '\\') = true ∧ (escaped = false → (Lexeme.read fresh (c :: cs)).2 =
      (c :: cs).drop ((c :: cs).takeWhile isNamePart).length) := by
  unfold Lexeme.read at h ⊢
  dsimp only at h ⊢
  by_cases word : (isNameStart c || c == '\\') = true
  · refine ⟨word, fun plain => ?_⟩
    subst plain
    rw [if_pos word] at h ⊢
    split at h
    · split at h <;> cases h
    next unescaped => rw [if_neg unescaped]
  rw [if_neg word] at h
  split at h
  · split at h
    · split at h <;> cases h
    · cases h
  split at h
  · cases h
  split at h
  · split at h <;> cases h
  split at h
  · cases h
  split at h <;> cases h

/-- A name with dashes goes on behind a name where a dash stands. -/
theorem drop_tagName {p q : Char → Bool} (more : ∀ c, q c = true → p c = true) (t : Text) :
    t.drop (t.takeWhile p).length = t.drop (t.takeWhile q).length ∨
      ∃ c cs, t.drop (t.takeWhile q).length = c :: cs ∧ p c = true ∧ q c = false := by
  induction t with
  | nil => exact .inl rfl
  | cons c t ih =>
    rw [List.takeWhile_cons, List.takeWhile_cons]
    cases hq : q c with
    | true =>
      rw [more c hq]
      exact ih
    | false =>
      cases hp : p c with
      | true => exact .inr ⟨c, t, rfl, hp, hq⟩
      | false => exact .inl rfl

theorem Reading.Takes.firm {s : Reading} {how : Reach} {text words rest : Text}
    (takes : s.Takes how text words rest) (reads : s.token.Reads)
    (firm : isFirm s.token.lexeme = true) :
    words = [] ∧ (rest = s.token.rest ∨ ∃ cs, s.token.rest = '-' :: cs) := by
  obtain ⟨fits, reach, -, -, words_eq⟩ := takes
  have read := reads.read
  generalize s.token = k at *
  have plain : how ≠ .words → words = [] := fun other => by rw [words_eq, if_neg other]
  have same : how ≠ .words → some k.rest = some (words ++ rest) →
      words = [] ∧ (rest = k.rest ∨ ∃ cs, k.rest = '-' :: cs) := fun other e => by
    rw [plain other] at e
    exact ⟨plain other, .inl (Option.some.inj e).symm⟩
  have spelled := (read_cases k.fresh k.here).2
  rw [read] at spelled
  rcases isFirm_iff.mp firm with ⟨name, escaped, lexeme⟩ | ⟨name, mem, lexeme⟩
  · -- a word
    have word : ∀ c cs, k.here = c :: cs → _ := fun c cs here => by
      have word := @read_word k.fresh c cs name escaped
      rw [← here, read] at word
      exact word lexeme
    rw [lexeme] at fits
    cases how with
    | token => exact same (by decide) reach
    | operator =>
      unfold Reach.rest? Token.operator at reach
      rw [lexeme] at reach
      exact same (by decide) reach
    | less =>
      rw [Reach.rest?] at reach
      split at reach
      next cs here => exact absurd (word '<' cs here).1 (by decide)
      next => cases reach
    | tagName =>
      have unescaped : escaped = false := by
        cases escaped with
        | false => rfl
        | true => cases fits
      refine ⟨plain (by decide), ?_⟩
      rw [plain (by decide), Reach.rest?] at reach
      rw [← (Option.some.inj reach : _ = rest)]
      cases here : k.here with
      | nil =>
        rw [here] at read
        cases (congrArg Prod.fst read).trans lexeme
      | cons c cs =>
        have rest : k.rest = _ := (word c cs here).2 unescaped
        rw [rest, here]
        rcases drop_tagName (p := fun c => isNamePart c || c == '-') (q := isNamePart)
          (fun c part => by simp [part]) (c :: cs) with e | ⟨d, ds, e, dash, part⟩
        · exact .inl e
        · rw [part, Bool.false_or] at dash
          exact .inr ⟨ds, by rw [e, eq_of_beq dash]⟩
    | regex | quoted | template | words => cases fits
  · -- a sign
    have front := spelled name lexeme
    rw [lexeme] at fits
    cases how with
    | token => exact same (by decide) reach
    | operator =>
      have op : k.operator = some name := by
        unfold Token.operator
        rw [lexeme]
        split
        next greater =>
          cases greater
          exact absurd mem (by decide)
        next => simp_all
        next => simp_all
      have cut : (name.toList ++ k.rest).drop name.length = k.rest := by
        rw [← String.length_toList, List.drop_left]
      rw [Reach.rest?, op, ← front] at reach
      dsimp only at reach
      rw [cut] at reach
      exact same (by decide) reach
    | less =>
      rw [Reach.rest?, ← front] at reach
      simp only [List.mem_cons, List.not_mem_nil, or_false] at mem
      rcases mem with rfl | rfl | rfl
      · cases reach
      · exact same (by decide) reach
      · cases reach
    | regex | tagName | quoted | template | words =>
      simp only [List.mem_cons, List.not_mem_nil, or_false] at mem
      rcases mem with rfl | rfl | rfl <;> cases fits

theorem next_dash (pos : Nat) (cs : Text) :
    Token.next pos ('-' :: cs) false = .behind ⟨pos, '-' :: cs, false, [], false⟩ := by
  have stays : Gap.skip ('-' :: cs).length ⟨pos, '-' :: cs, false, [], false⟩ =
      ⟨pos, '-' :: cs, false, [], false⟩ := by
    rw [List.length_cons, Gap.skip_cons, if_neg (by simp), if_neg (by simp), if_neg (by decide),
      if_neg (by decide)]
  unfold Token.next
  rw [stays]
  rfl

theorem not_firm_dash (fresh : Bool) (cs : Text) :
    isFirm (Lexeme.read fresh ('-' :: cs)).1 = false := by
  rw [← Bool.not_eq_true]
  intro firm
  rcases isFirm_iff.mp firm with ⟨name, escaped, lexeme⟩ | ⟨sign, mem, lexeme⟩
  · exact absurd (read_word lexeme).1 (by decide)
  · have front := (read_cases fresh ('-' :: cs)).2 sign lexeme
    simp only [List.mem_cons, List.not_mem_nil, or_false] at mem
    rcases mem with rfl | rfl | rfl <;> cases front

theorem Reading.Takes.whole {s : Reading} {how : Reach} {text words rest : Text}
    (takes : s.Takes how text words rest) : s.token.Whole := by
  rintro ⟨bad, torn, cs, here⟩
  obtain ⟨fits, reach, text_eq, solid, -⟩ := takes
  have none : s.token.rest = words ++ rest → False := fun e =>
    solid (by rw [text_eq, ← e, torn, Nat.sub_self, List.take_zero])
  rw [bad] at fits
  cases how with
  | token => exact none (Option.some.inj reach)
  | operator =>
    unfold Reach.rest? Token.operator at reach
    rw [bad] at reach
    exact none (Option.some.inj reach)
  | less =>
    rw [Reach.rest?, here] at reach
    cases reach
  | regex | tagName | quoted | template | words => cases fits

/-- A course and another text behind its reading `j`, where the same token stands `m` bytes farther
on. -/
structure Regap (n : Nat) (along : Nat → Reading) (j m : Nat) (y' : Text) : Prop where
  course : Course n along
  lt : j < n
  joint : 0 < j → Joint (along j).rest y'
  carried : Carried m (along j).token (Token.next (along j).last y' (j == 0))

namespace Regap

variable {n i j m : Nat} {along : Nat → Reading} {x y' : Text}

theorem fronts (regap : Regap n along j m y') (lt : i < j)
    (rest : (along i).rest = x ++ (along j).rest) :
    Fronts (along j).rest y' (along i).token (Token.next (along i).last (x ++ y') (i == 0)) := by
  have course := regap.course
  have le : i < n := Nat.lt_trans lt regap.lt
  obtain ⟨how, text, words, rest', takes, next⟩ := course.step_spec le
  obtain ⟨z, behind⟩ := course.rest_suffix lt (Nat.le_of_lt regap.lt)
  have here := (takes.parts (course.suffix (Nat.le_of_lt le))).symm
  have whole := takes.whole
  rw [next] at behind
  obtain rfl : z ++ (along j).rest = rest' := behind
  have token := course.token_eq (Nat.le_of_lt le)
  rw [rest] at token
  rw [token] at here whole ⊢
  refine (regap.joint (Nat.zero_lt_of_lt lt)).fronts (v := text ++ (words ++ z)) ?_ whole ?_
  · exact fun none => takes.solid (List.append_eq_nil_iff.mp none).1
  · rw [here, List.append_assoc, List.append_assoc]

theorem joint_of_lt (regap : Regap n along j m y') (lt : i < j) : Joint (along j).rest y' :=
  regap.joint (Nat.zero_lt_of_lt lt)

theorem lookAt (regap : Regap n along j m y') (le : i ≤ j)
    (rest : (along i).rest = x ++ (along j).rest) :
    SameLook (some (along i).token) (some (Token.next (along i).last (x ++ y') (i == 0))) ∧
      (Token.next (along i).last (x ++ y') (i == 0)).operator = (along i).token.operator := by
  rcases Nat.lt_or_eq_of_le le with lt | rfl
  · have fronts := regap.fronts lt rest
    have joint := regap.joint_of_lt lt
    exact ⟨congrArg some (Prod.ext (fronts.lexeme_eq joint) fronts.fresh), fronts.operator_eq joint⟩
  · obtain rfl : x = [] := List.append_left_eq_self.mp rest.symm
    exact ⟨regap.carried.sameLook, regap.carried.operator_eq⟩

/-- Behind a firm token stands the next one of the course, or else a dash goes on with a name. -/
theorem behind_firm (regap : Regap n along j m y') (lt : i < j)
    (rest : (along i).rest = x ++ (along j).rest) (firm : isFirm (along i).token.lexeme = true)
    {k' : Token} (new : k' = Token.next (along i).last (x ++ y') (i == 0)) :
    (∃ z, (along (i + 1)).rest = z ++ (along j).rest ∧
      Token.next (along i).token.hi (along i).token.rest false = (along (i + 1)).token ∧
      Token.next k'.hi k'.rest false = Token.next (along (i + 1)).last (z ++ y') (i + 1 == 0)) ∨
    SameLook (some (Token.next (along i).token.hi (along i).token.rest false))
        (some (Token.next k'.hi k'.rest false)) ∧
      isFirm (Token.next (along i).token.hi (along i).token.rest false).lexeme = false := by
  have course := regap.course
  have fronts := regap.fronts lt rest
  rw [← new] at fronts
  have joint := regap.joint_of_lt lt
  have le : i < n := Nat.lt_trans lt regap.lt
  obtain ⟨z, old, new'⟩ := fronts.rest_eq joint fun quoted => by
    rw [quoted] at firm
    cases firm
  have hi := fronts.hi_eq old new'
  obtain ⟨how, text, words, rest', takes, next⟩ := course.step_spec le
  obtain ⟨rfl, same | ⟨cs, dash⟩⟩ := takes.firm fronts.reads firm
  · obtain rfl : rest' = (along i).token.rest := same
    have last : (along (i + 1)).last = (along i).token.hi := by
      rw [next, fronts.reads.hi, takes.text_eq]
      rfl
    refine .inl ⟨z, ?_, ?_, ?_⟩
    · rw [next]
      exact old
    · rw [course.token_eq le, last, next]
      rfl
    · rw [hi, new', last]
      rfl
  · refine .inr ?_
    rw [hi, new', old]
    cases z with
    | nil => exact absurd rfl ((old.symm.trans dash ▸ joint.stops : Stops ('-' :: cs)).ne (by decide))
    | cons c z =>
      obtain ⟨rfl, -⟩ := List.cons.inj (old.symm.trans dash)
      have both : Fronts (along j).rest y' (Token.next (along i).token.hi ('-' :: z ++ (along j).rest) false)
          (Token.next (along i).token.hi ('-' :: z ++ y') false) := by
        rw [List.cons_append, List.cons_append, next_dash, next_dash]
        exact ⟨rfl, rfl, rfl, ⟨'-', z, rfl, rfl⟩, Token.behind_reads _, Token.behind_reads _⟩
      refine ⟨congrArg some (Prod.ext (both.lexeme_eq joint) both.fresh), ?_⟩
      rw [List.cons_append, next_dash]
      exact not_firm_dash false (z ++ (along j).rest)

/-- What is seen behind a token does not depend on the gap. -/
theorem following (regap : Regap n along j m y') (le : i ≤ j)
    (rest : (along i).rest = x ++ (along j).rest) {k' : Token}
    (new : k' = Token.next (along i).last (x ++ y') (i == 0)) :
    SameLook (following? (along i).token) (following? k') := by
  obtain ⟨same, -⟩ := regap.lookAt le rest
  rw [← new] at same
  refine following?_congr (congrArg Prod.fst (Option.some.inj same)) fun firm => ?_
  rcases Nat.lt_or_eq_of_le le with lt | rfl
  · rcases regap.behind_firm lt rest firm new with ⟨z, rest', old, new'⟩ | ⟨same, -⟩
    · rw [old, new']
      exact (regap.lookAt lt rest').1
    · exact same
  · obtain rfl : x = [] := List.append_left_eq_self.mp rest.symm
    rw [new]
    exact regap.carried.next.sameLook

theorem following_twice (regap : Regap n along j m y') (le : i ≤ j)
    (rest : (along i).rest = x ++ (along j).rest) {k' : Token}
    (new : k' = Token.next (along i).last (x ++ y') (i == 0)) :
    SameLook ((following? (along i).token).bind following?) ((following? k').bind following?) := by
  obtain ⟨same, -⟩ := regap.lookAt le rest
  rw [← new] at same
  have lexeme : k'.lexeme = (along i).token.lexeme := congrArg Prod.fst (Option.some.inj same)
  cases firm : isFirm (along i).token.lexeme with
  | false =>
    rw [following?_of_not_firm firm, following?_of_not_firm (lexeme ▸ firm)]
    rfl
  | true =>
    rw [following?_of_firm firm, following?_of_firm (lexeme ▸ firm), Option.bind_some,
      Option.bind_some]
    rcases Nat.lt_or_eq_of_le le with lt | rfl
    · rcases regap.behind_firm lt rest firm new with ⟨z, rest', old, new'⟩ | ⟨same, plain⟩
      · rw [old]
        exact regap.following lt rest' new'
      · refine following?_congr (congrArg Prod.fst (Option.some.inj same)) fun firm => ?_
        rw [plain] at firm
        cases firm
    · obtain rfl : x = [] := List.append_left_eq_self.mp rest.symm
      rw [new]
      exact regap.carried.next.following?

/-- The counterpart of a reading in front of the gap. -/
def front (s : Reading) (first : Bool) (rest : Text) : Reading :=
  { s with rest, token := Token.next s.last rest first }

/-- The counterpart of a reading behind the gap. -/
structure Behind (p : Reading) (m : Nat) (rs : List Remark) (s t : Reading) : Prop where
  token : Carried m s.token t.token
  ahead : t.token.remarks = s.token.remarks.map (Remark.shift m)
  stretches : ∃ late, s.stretches = late ++ p.stretches ∧
    t.stretches = late.map (Stretch.shift m) ++ p.stretches
  remarks : ∃ late, s.remarks = late ++ (p.token.remarks ++ p.remarks) ∧
    t.remarks = late.map (Remark.shift m) ++ (rs ++ p.remarks)

/-- The counterparts of the readings on the course. -/
inductive Alike (n : Nat) (along : Nat → Reading) (j m : Nat) (y' : Text) : Reading → Reading → Prop
  | front {i : Nat} {x : Text} (le : i ≤ j) (rest : (along i).rest = x ++ (along j).rest) :
    Alike n along j m y' (along i) (front (along i) (i == 0) (x ++ y'))
  | behind {i : Nat} {t : Reading} (lt : j < i) (le : i ≤ n)
    (behind : Behind (along j) m (Token.next (along j).last y' (j == 0)).remarks (along i) t) :
    Alike n along j m y' (along i) t

theorem shows (regap : Regap n along j m y') {s t : Reading} (alike : Alike n along j m y' s t) :
    s.sight = t.sight ∧ s.second = t.second ∧ s.third = t.third := by
  cases alike with
  | front le rest =>
    obtain ⟨same, op⟩ := regap.lookAt le rest
    obtain ⟨lexeme, fresh⟩ := Prod.mk.inj (Option.some.inj same)
    refine ⟨?_, (regap.following le rest rfl).glimpse rfl, (regap.following_twice le rest rfl).glimpse rfl⟩
    unfold sight front
    dsimp only at lexeme fresh ⊢
    rw [lexeme, fresh, op]
  | @behind i t lt le behind =>
    obtain ⟨late, old, new⟩ := behind.stretches
    have length : (along i).stretches.length = t.stretches.length := by
      rw [old, new, List.length_append, List.length_append, List.length_map]
    refine ⟨?_, behind.token.following?.glimpse length, behind.token.following_twice.glimpse length⟩
    unfold sight
    rw [behind.token.lexeme, behind.token.fresh, behind.token.operator_eq, length]

theorem takes_of_carried {s t : Reading} {how : Reach} {text words rest : Text}
    (carried : Carried m s.token t.token) (takes : s.Takes how text words rest) :
    t.Takes how text words rest := by
  obtain ⟨fits, reach, text_eq, solid, words_eq⟩ := takes
  refine ⟨?_, ?_, ?_, solid, words_eq⟩
  · rw [carried.lexeme]
    exact fits
  · rw [carried.reach_eq]
    exact reach
  · rw [carried.here]
    exact text_eq

/-- Counterparts from which the same is taken are counterparts again. -/
theorem behind_of_carried {p s t : Reading} {rs : List Remark} {text words rest : Text}
    (carried : Carried m s.token t.token)
    (stretches : ∃ late, s.stretches = late ++ p.stretches ∧
      t.stretches = late.map (Stretch.shift m) ++ p.stretches)
    (remarks : ∃ late, s.token.remarks ++ s.remarks = late ++ (p.token.remarks ++ p.remarks) ∧
      t.token.remarks ++ t.remarks = late.map (Remark.shift m) ++ (rs ++ p.remarks)) :
    Behind p m rs (s.behind text words rest) (t.behind text words rest) := by
  have last : (t.behind text words rest).last = (s.behind text words rest).last + m := by
    show t.token.lo + bytes text + bytes words = s.token.lo + bytes text + bytes words + m
    rw [carried.lo]
    omega
  obtain ⟨next, ahead⟩ := next_shift m (s.behind text words rest).last rest false
  rw [← last] at next ahead
  refine ⟨next, ahead, ?_, remarks⟩
  obtain ⟨late, old, new⟩ := stretches
  unfold Reading.behind
  dsimp only
  rw [old, new, carried.lo, carried.fresh]
  have swap : ∀ a b : Nat, a + m + b = a + b + m := fun a b => Nat.add_right_comm a m b
  refine ⟨_ ++ ⟨s.token.lo, s.token.lo + bytes text, false, s.token.fresh⟩ :: late, by rw [List.append_assoc]; rfl, ?_⟩
  rw [List.map_append, List.map_cons, List.append_assoc, swap, swap]
  split <;> rfl

theorem misses_endsMarkupText : Misses endsMarkupText := misses_of_stopChars (by decide)

theorem rest_ne_nil (regap : Regap n along j m y') : (along j).rest ≠ [] := by
  obtain ⟨how, text, words, rest, takes, -⟩ := regap.course.step_spec regap.lt
  have parts := takes.parts (regap.course.suffix (Nat.le_of_lt regap.lt))
  have here : (along j).token.here <:+ (along j).rest := by
    rw [regap.course.token_eq (Nat.le_of_lt regap.lt)]
    exact Token.here_suffix _ _ _
  intro none
  rw [none, List.suffix_nil, ← parts] at here
  exact takes.solid (List.append_eq_nil_iff.mp here).1

theorem takes_front (regap : Regap n along j m y') (lt : i < j) {how : Reach} {text words z : Text}
    (before : (along i).rest = x ++ (along j).rest)
    (takes : (along i).Takes how text words (z ++ (along j).rest)) :
    (front (along i) (i == 0) (x ++ y')).Takes how text words (z ++ y') := by
  have course := regap.course
  have joint := regap.joint_of_lt lt
  have fronts := regap.fronts lt before
  have parts := takes.parts (course.suffix (Nat.le_of_lt (Nat.lt_trans lt regap.lt)))
  obtain ⟨fits, reach, -, solid, words_eq⟩ := takes
  obtain ⟨c, v, here, here'⟩ := fronts.here
  have whole : text ++ (words ++ z) = c :: v := by
    rw [here, ← List.append_assoc words, ← List.append_assoc] at parts
    exact List.append_cancel_right parts
  have parts' : text ++ (words ++ (z ++ y')) =
      (front (along i) (i == 0) (x ++ y')).token.here := by
    rw [← List.append_assoc words, ← List.append_assoc, whole]
    exact here'.symm
  have short : (words ++ z).length ≤ v.length := by
    have size := congrArg List.length whole
    have := List.length_pos_iff.mpr solid
    rw [List.length_append, List.length_cons] at size
    omega
  refine ⟨?_, ?_, (take_front parts').symm, solid, ?_⟩
  · rw [show (front (along i) (i == 0) (x ++ y')).token.lexeme = _ from fronts.lexeme_eq joint]
    exact fits
  · rw [← List.append_assoc] at reach ⊢
    exact fronts.reach joint here here' short fits reach
  · split at words_eq
    next same =>
      rw [if_pos same]
      cases z with
      | cons d z =>
        have rest : (words ++ d :: z ++ (along j).rest).drop ((words ++ d :: z ++
            (along j).rest).takeWhile (!endsMarkupText ·)).length = d :: z ++ (along j).rest := by
          rw [List.append_assoc, ← words_eq, List.drop_left]
        obtain ⟨run, -⟩ := takeWhile_within (List.cons_ne_nil d z) rest y'
        rw [← List.append_assoc, run, List.append_assoc]
        exact words_eq
      | nil =>
        -- raw text does not end at a stop
        exfalso
        have all : ∀ d ∈ words, (!endsMarkupText d) = true := fun d mem =>
          List.mem_takeWhile_imp (p := (!endsMarkupText ·)) (words_eq ▸ mem)
        cases behind : (along j).rest with
        | nil => exact regap.rest_ne_nil behind
        | cons d y =>
          have stop : endsMarkupText d = false :=
            misses_endsMarkupText d (joint.stops d (by rw [behind]; rfl))
          rw [behind, List.nil_append, List.takeWhile_append_of_pos all, List.takeWhile_cons, stop]
            at words_eq
          have size := congrArg List.length words_eq
          simp at size
    next other =>
      rw [if_neg other]
      exact words_eq

theorem takes (regap : Regap n along j m y') {how : Reach} {s t s' : Reading} {x : Text × Text}
    (alike : Alike n along j m y' s t) (taken : s.take? how = some (x, s')) :
    Course.Astray n along s' ∨ ∃ t', t.take? how = some (x, t') ∧ Alike n along j m y' s' t' := by
  have course := regap.course
  have lt_n := regap.lt
  obtain ⟨rest', takes, rfl⟩ := take?_eq_some.mp taken
  cases alike with
  | @front i z le rest =>
    rcases course.along_or_astray (Nat.le_of_lt (Nat.lt_of_le_of_lt le lt_n)) taken with
      ⟨lt, next⟩ | astray
    · refine .inr ?_
      rcases Nat.lt_or_eq_of_le le with before | rfl
      · obtain ⟨z', behind⟩ := course.rest_suffix before (Nat.le_of_lt lt_n)
        have fronts := regap.fronts before rest
        have rest_eq : rest' = z' ++ (along j).rest := by
          rw [behind, ← next]
          rfl
        subst rest_eq
        have takes' := regap.takes_front before rest takes
        refine ⟨_, take?_eq_some.mpr ⟨_, takes', rfl⟩, ?_⟩
        have new : (Regap.front (along i) (i == 0) (z ++ y')).behind x.1 x.2 (z' ++ y') =
            Regap.front (along (i + 1)) (i + 1 == 0) (z' ++ y') := by
          rw [← next]
          unfold Reading.behind Regap.front
          dsimp only
          rw [fronts.lo, fronts.fresh, fronts.remarks]
          rfl
        rw [new, next]
        exact .front before behind.symm
      · obtain rfl : z = [] := List.append_left_eq_self.mp rest.symm
        have takes' : (Regap.front (along i) (i == 0) ([] ++ y')).Takes how x.1 x.2 rest' :=
          takes_of_carried regap.carried takes
        refine ⟨_, take?_eq_some.mpr ⟨_, takes', rfl⟩, ?_⟩
        rw [next]
        refine .behind (Nat.lt_succ_self i) lt ?_
        rw [← next]
        exact behind_of_carried regap.carried ⟨[], rfl, rfl⟩ ⟨[], rfl, rfl⟩
    · exact .inl astray
  | @behind i t lt le behind =>
    rcases course.along_or_astray le taken with ⟨lt', next⟩ | astray
    · refine .inr ⟨_, take?_eq_some.mpr ⟨_, takes_of_carried behind.token takes, rfl⟩, ?_⟩
      rw [next]
      refine .behind (Nat.lt_succ_of_lt lt) lt' ?_
      rw [← next]
      obtain ⟨late, old, new⟩ := behind.remarks
      refine behind_of_carried behind.token behind.stretches
        ⟨(along i).token.remarks ++ late, ?_, ?_⟩
      · rw [old, List.append_assoc]
      · rw [behind.ahead, new, List.map_append, List.append_assoc]
    · exact .inl astray

/-- Readings on the course and their counterparts. -/
def likeness (regap : Regap n along j m y') : Likeness where
  Alike := Alike n along j m y'
  Astray := Course.Astray n along
  shows := regap.shows
  takes := regap.takes
  strays := regap.course.strays

end Regap

end Quell.Grammar
