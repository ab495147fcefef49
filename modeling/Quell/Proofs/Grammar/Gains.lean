import Quell.Proofs.Grammar.Gap

/-!
A line comment put in above a line.

If a line comment that ends its line is put in front of the first token on a line, then what is read
is the old program with its offsets moved, and the comment (`Program.read?_row`). There must be no types:
readings on trial leave the course, and may come upon the comment inside of a token.
-/
namespace Quell.Grammar

open Text

def movedStart (x k n : Nat) : Nat := if x ≤ n then n + k else n

def movedEnd (x k n : Nat) : Nat := if x < n then n + k else n

section

variable (start stop : Nat → Nat)

mutual

/-- The term with other offsets. An empty hole ends where a brace starts. -/
def Term.moved : Term → Term
  | .mk label lo hi ps =>
    .mk label (start lo) (if label = .shown .emptyHole then start hi else stop hi) (movedAll ps)

def movedAll : List Term → List Term
  | [] => []
  | t :: ts => t.moved :: movedAll ts

end

def Remark.moved (r : Remark) : Remark := { r with lo := start r.lo, hi := stop r.hi }

def Stretch.moved (st : Stretch) : Stretch := { st with lo := start st.lo, hi := stop st.hi }

end

/-- The program with `k` bytes more at an offset, which hold one comment, and that starts there. -/
structure Program.Gains (p : Program) (x k : Nat) (r : Remark) (p' : Program) : Prop where
  terms : p'.terms = movedAll (movedStart x k) (movedEnd x k) p.terms
  stretches : p'.stretches = p.stretches.map (Stretch.moved (movedStart x k) (movedEnd x k))
  remarks : ∀ q, q ∈ p'.remarks ↔
    q = r ∨ ∃ o ∈ p.remarks, q = o.moved (movedStart x k) (movedEnd x k)
  /-- Nothing ends at the offset, except for an empty hole. -/
  apart : ∀ t ∈ p.terms, t.All fun label _ hi => label ≠ .shown .emptyHole → hi ≠ x

/-! Bytes. -/

theorem Gap.skip_bytes (fuel : Nat) (g : Gap) :
    (Gap.skip fuel g).pos + bytes (Gap.skip fuel g).rest = g.pos + bytes g.rest := by
  have slash : '/'.utf8Size = 1 := rfl
  have star : '*'.utf8Size = 1 := rfl
  fun_induction Gap.skip fuel g with
  | case1 => rfl
  | case2 fuel g cs e body hi ih =>
    have parts : body ++ cs.drop body.length = cs :=
      List.prefix_iff_eq_append.mp (List.takeWhile_prefix _)
    have size := congrArg bytes parts
    rw [bytes_append] at size
    rw [ih, e, bytes_cons, bytes_cons, slash, ← size]
    show g.pos + 2 + bytes body + bytes (cs.drop body.length) = _
    omega
  | case3 fuel g cs e body rest found hi ih =>
    rw [ih, e, ← splitOnce?_eq found]
    simp only [bytes_append, bytes_cons, bytes_nil, slash, star]
    show g.pos + 4 + bytes body + bytes rest = _
    omega
  | case4 => rfl
  | case5 fuel g c cs _ _ e _ ih => rw [ih, e, bytes_cons, Nat.add_assoc]
  | case6 fuel g c cs _ _ e _ _ ih => rw [ih, e, bytes_cons, Nat.add_assoc]
  | case7 => rfl
  | case8 => rfl

theorem Token.next_bytes (pos : Nat) (rest : Text) (fresh : Bool) :
    (Token.next pos rest fresh).lo + bytes (Token.next pos rest fresh).here = pos + bytes rest := by
  have skipped := Gap.skip_bytes rest.length { pos, rest, fresh }
  unfold Token.next
  dsimp only
  split <;> exact skipped

theorem Course.bytes_eq {n i : Nat} {along : Nat → Reading} (course : Course n along) (le : i ≤ n) :
    (along i).last + bytes (along i).rest = (along 0).last + bytes (along 0).rest := by
  induction i with
  | zero => rfl
  | succ i ih =>
    obtain ⟨how, text, words, rest, takes, next⟩ := course.step_spec le
    have token := Token.next_bytes (along i).last (along i).rest (i == 0)
    rw [← course.token_eq (Nat.le_of_lt le), ih (Nat.le_of_lt le),
      ← takes.parts (course.suffix (Nat.le_of_lt le)), bytes_append, bytes_append] at token
    rw [next, ← token]
    show (along i).token.lo + bytes text + bytes words + bytes rest = _
    omega

/-- A suffix of a text is determined by its size. -/
theorem eq_of_suffix_bytes {a b t : Text} (suffix : t <:+ a ++ b) (size : bytes t = bytes b) :
    t = b := by
  obtain ⟨z, e⟩ := suffix
  have whole := congrArg bytes e
  rw [bytes_append, bytes_append] at whole
  exact (append_inj_bytes e (by omega)).2

theorem interpreterLine_suffix (source : Text) :
    (interpreterLine source).2 <:+ source ∧
      (interpreterLine source).1 + bytes (interpreterLine source).2 = bytes source := by
  unfold interpreterLine
  split
  next cs =>
    have line := List.takeWhile_prefix (l := cs) (!isLineEnd ·)
    have parts := congrArg bytes (List.prefix_iff_eq_append.mp line)
    have hash : '#'.utf8Size = 1 := rfl
    have mark : '!'.utf8Size = 1 := rfl
    rw [bytes_append] at parts
    refine ⟨((List.drop_suffix _ cs).trans (List.suffix_cons '!' cs)).trans
      (List.suffix_cons '#' ('!' :: cs)), ?_⟩
    rw [bytes_cons, bytes_cons, hash, mark]
    dsimp only
    omega
  next => exact ⟨List.suffix_refl _, Nat.zero_add _⟩

theorem interpreterLine_plain {cs : Text} (plain : ∀ t, cs = '#' :: '!' :: t → False) :
    interpreterLine cs = (0, cs) := by
  unfold interpreterLine
  split
  next t => exact absurd rfl (plain t)
  next => rfl

/-- The line for an interpreter ends in front of a blank line end, whatever follows. -/
theorem interpreterLine_append {a b v : Text} {pos : Nat} (blank : Run (lastLine a))
    (line : interpreterLine (a ++ b) = (pos, v ++ b)) {u : Text} (plain : '#' ∉ u.head?) :
    interpreterLine (a ++ u) = (pos, v ++ u) := by
  rcases a with - | ⟨c, - | ⟨d, a⟩⟩
  · have short := (interpreterLine_suffix b)
    rw [List.nil_append] at line
    rw [line] at short
    have none : v = [] := by
      have size := short.1.length_le
      rw [List.length_append] at size
      exact List.length_eq_zero_iff.mp (by omega)
    subst none
    have zero : pos = 0 := by
      have size := short.2
      dsimp only [List.nil_append] at size
      omega
    rw [zero, List.nil_append]
    refine interpreterLine_plain fun w e => plain ?_
    rw [e]
    exact rfl
  · have seen : c ≠ '#' := by
      rintro rfl
      exact absurd (blank '#' (by decide)) (by decide)
    have plain : ∀ t w, [c] ++ t = '#' :: '!' :: w → False := fun t w e => seen (List.cons.inj e).1
    rw [interpreterLine_plain (plain b)] at line
    obtain ⟨rfl, rest⟩ := Prod.mk.inj line
    rw [interpreterLine_plain (plain u), List.append_cancel_right rest]
  · by_cases marked : c = '#' ∧ d = '!'
    · obtain ⟨rfl, rfl⟩ := marked
      have mem : '\n' ∈ a := by
        by_contra free
        rw [lastLine_free (by simp [free])] at blank
        exact absurd (blank '#' List.mem_cons_self) (by decide)
      have cut := takeWhile_inside (p := (!isLineEnd ·)) mem (by decide)
      have each : ∀ t, interpreterLine ('#' :: '!' :: a ++ t) =
          (2 + bytes (a.takeWhile (!isLineEnd ·)),
            a.drop (a.takeWhile (!isLineEnd ·)).length ++ t) := by
        intro t
        rw [← (cut t).2, ← (cut t).1]
        rfl
      rw [each] at line
      obtain ⟨rfl, rest⟩ := Prod.mk.inj line
      rw [each, List.append_cancel_right rest]
    · have plain : ∀ t w, c :: d :: a ++ t = '#' :: '!' :: w → False := fun t w e =>
        marked ⟨(List.cons.inj e).1, (List.cons.inj (List.cons.inj e).2).1⟩
      rw [interpreterLine_plain (plain b)] at line
      obtain ⟨rfl, rest⟩ := Prod.mk.inj line
      rw [interpreterLine_plain (plain u), List.append_cancel_right rest]

/-! Places. -/

section

variable {ss ss' : Array Stretch} {x k stop : Nat}

mutual

theorem Term.placed_moved (same : ∀ n, ss'.getD n ⟨stop + k, stop + k, false, false⟩ =
    (ss.getD n ⟨stop, stop, false, false⟩).moved (movedStart x k) (movedEnd x k))
    (apart : ∀ n, (ss.getD n ⟨stop, stop, false, false⟩).hi ≠ x) :
    (t : Term) → t.placed ss' (stop + k) = (t.placed ss stop).moved (movedStart x k) (movedEnd x k)
  | .mk label lo hi ps => by
    rw [Term.placed, Term.placed, same, same]
    split
    next empty =>
      have before : movedEnd x k (ss.getD lo ⟨stop, stop, false, false⟩).hi =
          movedStart x k (ss.getD lo ⟨stop, stop, false, false⟩).hi := by
        have := apart lo
        unfold movedEnd movedStart
        split <;> split <;> omega
      rw [Term.moved, if_pos empty, movedAll, ← before]
      rfl
    next full =>
      rw [Term.moved, if_neg full, placedAll_moved same apart ps]
      rfl

theorem placedAll_moved (same : ∀ n, ss'.getD n ⟨stop + k, stop + k, false, false⟩ =
    (ss.getD n ⟨stop, stop, false, false⟩).moved (movedStart x k) (movedEnd x k))
    (apart : ∀ n, (ss.getD n ⟨stop, stop, false, false⟩).hi ≠ x) :
    (ts : List Term) → placedAll ss' (stop + k) ts =
      movedAll (movedStart x k) (movedEnd x k) (placedAll ss stop ts)
  | [] => by rw [placedAll, placedAll, movedAll]
  | t :: ts => by
    rw [placedAll, placedAll, movedAll, t.placed_moved same apart, placedAll_moved same apart ts]

end

end

/-! The run. -/

/-- A reading that goes through has a counterpart. -/
theorem Regap.run {n j m : Nat} {along : Nat → Reading} {y' x : Text} {α : Type}
    (regap : Regap n along j m y') (p : Reader α) {c : Scope} (untyped : c.typed = false) {a : α}
    (run : p.run c (along 0) = some (a, along n)) (rest : (along 0).rest = x ++ (along j).rest) :
    ∃ t, p.run c (.start (along 0).last (x ++ y')) = some (a, t) ∧
      Behind (along j) m (Token.next (along j).last y' (j == 0)).remarks (along n) t := by
  have course := regap.course
  have start : Reading.start (along 0).last (x ++ y') = front (along 0) (0 == 0) (x ++ y') := by
    obtain ⟨pos, rest, e⟩ := course.start
    rw [e]
    rfl
  obtain ⟨-, alikes⟩ := p.uniform regap.likeness c (.inl untyped) (along 0) a (along n) run
  rcases alikes _ (.front (Nat.zero_le j) rest) with astray | ⟨t, run', alike⟩
  · exact absurd rfl (astray n (Nat.le_refl n))
  · refine ⟨t, start ▸ run', ?_⟩
    have last : ∀ {i}, i ≤ n → along n = along i → i = n := fun le same => by
      rw [← course.cuts_eq le, ← course.cuts_eq (Nat.le_refl n), same]
    replace alike : Alike n along j m y' (along n) t := alike
    generalize e : along n = s at alike
    cases alike with
    | front le _ =>
      have := last (Nat.le_of_lt (Nat.lt_of_le_of_lt le regap.lt)) e
      exact absurd regap.lt (by omega)
    | behind _ _ behind => exact behind

/-- The first token on a line, and the gap in front of it. -/
structure Opening (a b : Text) (along : Nat → Reading) (j : Nat) (z g : Text) : Prop where
  front : a = z ++ g
  rest : (along j).rest = g ++ b
  passed : Gap.passed ⟨(along j).last, g ++ b, j == 0, [], false⟩ =
    ⟨bytes a, b, true, (along j).token.remarks, false⟩
  token : (along j).token = .behind ⟨bytes a, b, true, (along j).token.remarks, false⟩

theorem Course.exists_opening {n j : Nat} {along : Nat → Reading} {a b : Text}
    (course : Course n along) (lt : j < n) (suffix : (along 0).rest <:+ a ++ b)
    (size : (along 0).last + bytes (along 0).rest = bytes (a ++ b))
    (lo : (along j).token.lo = bytes a) (fresh : (along j).token.fresh = true) :
    ∃ z g, Opening a b along j z g := by
  have le := Nat.le_of_lt lt
  obtain ⟨how, text, words, rest, takes, -⟩ := course.step_spec lt
  have token := course.token_eq le
  have whole := takes.whole
  rw [token] at whole
  obtain ⟨sound, behind⟩ := Token.next_whole whole
  rw [← token] at behind
  have bytes_here := Token.next_bytes (along j).last (along j).rest (j == 0)
  rw [← token, course.bytes_eq le, size, bytes_append, lo] at bytes_here
  have below : (along j).rest <:+ a ++ b := (course.rest_suffix (Nat.zero_le j) le).trans suffix
  have inside : (along j).token.here <:+ (along j).rest := by
    rw [token]
    exact Token.here_suffix _ _ _
  have here := eq_of_suffix_bytes (inside.trans below) (Nat.add_left_cancel bytes_here)
  rw [here] at inside
  obtain ⟨g, split⟩ := inside
  rw [← split] at below
  obtain ⟨z, front⟩ := below
  rw [← List.append_assoc] at front
  generalize skipped : Gap.skip (along j).rest.length ⟨(along j).last, (along j).rest, j == 0, [], false⟩ =
    gap at sound behind
  obtain ⟨pos, rest', fresh', rs, torn⟩ := gap
  obtain rfl : torn = false := sound
  obtain rfl : rest' = b := by rw [← here, behind]; rfl
  obtain rfl : pos = bytes a := by rw [← lo, behind]; rfl
  obtain rfl : fresh' = true := by rw [← fresh, behind]; rfl
  obtain rfl : rs = (along j).token.remarks := by rw [behind]; rfl
  refine ⟨z, g, (List.append_cancel_right front).symm, split.symm, ?_, behind⟩
  rw [split]
  exact skipped

namespace Opening

variable {n j : Nat} {along : Nat → Reading} {a b z g body indent : Text} {eol : LineEnding}
  (opening : Opening a b along j z g) (blank : Run (lastLine a))

include opening

theorem still : Gap.Still b := by
  have still := Gap.still_passed (g := ⟨(along j).last, g ++ b, j == 0, [], false⟩)
    (by rw [opening.passed])
  rwa [opening.passed] at still

theorem ne_nil (later : 0 < j) : g ≠ [] := by
  rintro rfl
  have passed := opening.passed
  rw [List.nil_append, opening.still, beq_false_of_ne (Nat.ne_of_gt later)] at passed
  cases congrArg Gap.fresh passed

theorem stops (later : 0 < j) : Stops (g ++ b) := by
  obtain ⟨c, g, rfl⟩ := List.exists_cons_of_ne_nil (opening.ne_nil later)
  rintro d ⟨⟩
  by_contra plain
  simp only [IsStop, not_or] at plain
  have passed := opening.passed
  rw [List.cons_append, Gap.passed_cons, if_neg (fun h => plain.2.2 h.1),
    if_neg (fun h => plain.2.2 h.1), if_neg plain.2.1, if_neg plain.1] at passed
  have size := congrArg (fun g : Gap => g.rest.length) passed
  simp only [List.length_cons, List.length_append] at size
  omega

include blank

theorem passed_row (eol : LineEnding) (plain : ∀ c ∈ body, isLineEnd c = false) (free : Run indent) :
    Token.next (along j).last (g ++ (Gap.row body eol indent ++ b)) (j == 0) =
      .behind ⟨bytes a + bytes (Gap.row body eol indent), b, true,
        ⟨.line, body, bytes a, bytes a + 2 + bytes body⟩ :: (along j).token.remarks, false⟩ := by
  have run : Run (lastLine g) := run_lastLine_of_suffix (opening.front ▸ blank)
  have skipped := Gap.passed_row eol opening.still opening.passed run plain free
  unfold Gap.passed at skipped
  unfold Token.next
  rw [skipped]
  rfl

theorem regap (eol : LineEnding) (course : Course n along) (lt : j < n) (plain : ∀ c ∈ body, isLineEnd c = false)
    (free : Run indent) : Regap n along j (bytes (Gap.row body eol indent))
      (g ++ (Gap.row body eol indent ++ b)) where
  course := course
  lt := lt
  joint later := by
    rw [opening.rest]
    refine ⟨opening.stops later, ?_⟩
    obtain ⟨c, g, rfl⟩ := List.exists_cons_of_ne_nil (opening.ne_nil later)
    rfl
  carried := by
    rw [opening.passed_row blank eol plain free, opening.token]
    exact ⟨rfl, rfl, rfl, rfl, rfl, Nat.add_right_comm _ _ _⟩

end Opening

theorem Remark.moved_of_le {x k : Nat} {r : Remark} (le : x ≤ r.lo) (wide : r.lo < r.hi) :
    r.moved (movedStart x k) (movedEnd x k) = r.shift k := by
  unfold Remark.moved Remark.shift movedStart movedEnd
  rw [if_pos le, if_pos (by omega)]

theorem Remark.moved_of_hi_le {x k : Nat} {r : Remark} (le : r.hi ≤ x) (wide : r.lo < r.hi) :
    r.moved (movedStart x k) (movedEnd x k) = r := by
  unfold Remark.moved movedStart movedEnd
  rw [if_neg (by omega), if_neg (by omega)]

theorem Stretch.moved_of_le {x k : Nat} {st : Stretch} (le : x ≤ st.lo) (wide : st.lo < st.hi) :
    st.moved (movedStart x k) (movedEnd x k) = st.shift k := by
  unfold Stretch.moved Stretch.shift movedStart movedEnd
  rw [if_pos le, if_pos (by omega)]

theorem Stretch.moved_of_hi_le {x k : Nat} {st : Stretch} (le : st.hi ≤ x) (wide : st.lo < st.hi) :
    st.moved (movedStart x k) (movedEnd x k) = st := by
  unfold Stretch.moved movedStart movedEnd
  rw [if_neg (by omega), if_neg (by omega)]

theorem Remark.Fits.wide {t : Text} {r : Remark} (fits : r.Fits t) : r.lo < r.hi := by
  obtain ⟨_, _, -, -, stop⟩ := slice?_eq_some.mp fits
  rw [bytes_delimit] at stop
  cases kind : r.kind <;> simp only [kind] at stop <;> omega

section

variable {n j : Nat} {along : Nat → Reading} {a b z g : Text} {k : Nat}

theorem Opening.last_lt (opening : Opening a b along j z g) (course : Course n along) (le : j ≤ n)
    (later : 0 < j) : (along j).last < bytes a := by
  have size := Token.next_bytes (along j).last (along j).rest (j == 0)
  rw [← course.token_eq le, opening.token, opening.rest, bytes_append] at size
  have wide : bytes g ≠ 0 := fun none => opening.ne_nil later (bytes_eq_zero.mp none)
  change bytes a + bytes b = _ at size
  omega

/-- No stretch ends where the token starts. -/
theorem Opening.apart (opening : Opening a b along j z g) (course : Course n along) (lt : j < n) :
    ∀ st ∈ (along n).stretches, st.hi ≠ bytes a := by
  have le := Nat.le_of_lt lt
  have lo : (along j).token.lo = bytes a := by rw [opening.token]; rfl
  obtain ⟨late, split, bounds⟩ := course.stretches_since le (Nat.le_refl n)
  rw [split]
  intro st mem
  rcases List.mem_append.mp mem with mem | mem
  · have := bounds st mem
    omega
  · rcases Nat.eq_zero_or_pos j with rfl | later
    · rw [course.stretches_start] at mem
      cases mem
    · have := course.stretches_le le st mem
      have := opening.last_lt course le later
      omega

theorem Opening.stretches_eq (opening : Opening a b along j z g) (course : Course n along) (lt : j < n)
    {rs : List Remark} {t : Reading} (behind : Regap.Behind (along j) k rs (along n) t) :
    t.stretches = (along n).stretches.map (Stretch.moved (movedStart (bytes a) k) (movedEnd (bytes a) k)) := by
  have le := Nat.le_of_lt lt
  have lo : (along j).token.lo = bytes a := by rw [opening.token]; rfl
  obtain ⟨late, split, bounds⟩ := course.stretches_since le (Nat.le_refl n)
  obtain ⟨late', split', new⟩ := behind.stretches
  obtain rfl := List.append_cancel_right (split.symm.trans split')
  rw [new, split, List.map_append]
  congr 1
  · refine List.map_congr_left fun st mem => ?_
    obtain ⟨le, wide⟩ := bounds st mem
    exact (Stretch.moved_of_le (lo ▸ le) wide).symm
  · refine (List.map_id' _).symm.trans (List.map_congr_left fun st mem => ?_)
    obtain ⟨wide, hi⟩ := course.stretches_le le st mem
    refine (Stretch.moved_of_hi_le (Nat.le_trans hi ?_) wide).symm
    rw [← lo]
    exact course.last_le le

theorem Opening.remarks_iff (opening : Opening a b along j z g) (course : Course n along) (lt : j < n)
    {r : Remark} {t : Reading}
    (behind : Regap.Behind (along j) k (r :: (along j).token.remarks) (along n) t) (q : Remark) :
    q ∈ t.token.remarks ++ t.remarks ↔ q = r ∨ ∃ o ∈ (along n).token.remarks ++ (along n).remarks,
      q = o.moved (movedStart (bytes a) k) (movedEnd (bytes a) k) := by
  have le := Nat.le_of_lt lt
  have lo : (along j).token.lo = bytes a := by rw [opening.token]; rfl
  obtain ⟨source, fits⟩ := course.fits
  have fits_n := course.fits_at fits (Nat.le_refl n)
  have fits_j := course.fits_at fits le
  obtain ⟨late, split, bounds⟩ := course.remarks_since le (Nat.le_refl n)
  obtain ⟨late', split', new⟩ := behind.remarks
  obtain rfl : (along n).token.remarks ++ late' = late :=
    List.append_cancel_right ((List.append_assoc ..).trans (split' ▸ split))
  have early : ∀ o ∈ (along j).token.remarks ++ (along j).remarks,
      o.moved (movedStart (bytes a) k) (movedEnd (bytes a) k) = o := fun o mem => by
    obtain ⟨fits, -, hi⟩ := (fits_j.passed.append fits_j.ahead).fits o mem
    exact Remark.moved_of_hi_le (lo ▸ hi) fits.wide
  have later : ∀ o ∈ (along n).token.remarks ++ late',
      o.moved (movedStart (bytes a) k) (movedEnd (bytes a) k) = o.shift k := fun o mem => by
    refine Remark.moved_of_le (lo ▸ bounds o mem) ((fits_n.passed.append fits_n.ahead).fits o ?_).1.wide
    rw [split]
    exact List.mem_append_left _ mem
  rw [split, behind.ahead, new, ← List.append_assoc, ← List.map_append]
  simp only [List.mem_append, List.cons_append, List.mem_cons, List.mem_map] at early later ⊢
  constructor
  · rintro (⟨o, mem, rfl⟩ | rfl | mem | mem)
    · exact .inr ⟨o, .inl mem, (later o mem).symm⟩
    · exact .inl rfl
    · exact .inr ⟨q, .inr (.inl mem), (early q (.inl mem)).symm⟩
    · exact .inr ⟨q, .inr (.inr mem), (early q (.inr mem)).symm⟩
  · rintro (rfl | ⟨o, mem | mem, rfl⟩)
    · exact .inr (.inl rfl)
    · exact .inl ⟨o, mem, (later o mem).symm⟩
    · rw [early o mem]
      exact .inr (.inr mem)

theorem Opening.gains (opening : Opening a b along j z g) (course : Course n along) (lt : j < n)
    {r : Remark} {t : Reading}
    (behind : Regap.Behind (along j) k (r :: (along j).token.remarks) (along n) t) (terms : List Term) :
    (Program.of terms (along n)).Gains (bytes a) k r (Program.of terms t) := by
  have lo : (along j).token.lo = bytes a := by rw [opening.token]; rfl
  have stretches := opening.stretches_eq course lt behind
  have past : bytes a < (along n).token.lo :=
    lo ▸ Nat.lt_of_lt_of_le (course.lo_lt_last lt (Nat.le_refl n)) (course.last_le (Nat.le_refl n))
  have stop : Stretch.moved (movedStart (bytes a) k) (movedEnd (bytes a) k)
      ⟨(along n).token.lo, (along n).token.lo, false, false⟩ =
      ⟨(along n).token.lo + k, (along n).token.lo + k, false, false⟩ := by
    unfold Stretch.moved movedStart movedEnd
    rw [if_pos (Nat.le_of_lt past), if_pos past]
  have apart := opening.apart course lt
  have apart' : ∀ i, ((along n).stretches.reverse.toArray.getD i
      ⟨(along n).token.lo, (along n).token.lo, false, false⟩).hi ≠ bytes a := fun i => by
    rw [Array.getD_eq_getD_getElem?, List.getElem?_toArray]
    cases found : (along n).stretches.reverse[i]? with
    | none => exact Nat.ne_of_gt past
    | some st => exact apart st (List.mem_reverse.mp (List.mem_of_getElem? found))
  refine ⟨?_, ?_, fun q => ?_, placedAll_all (fun _ _ h => absurd rfl h)
    (fun _ _ _ j _ => apart' j) terms⟩
  · unfold Program.of
    dsimp only
    rw [behind.token.lo, stretches, ← List.map_reverse]
    refine placedAll_moved (fun i => ?_) apart' terms
    rw [Array.getD_eq_getD_getElem?, Array.getD_eq_getD_getElem?, List.getElem?_toArray,
      List.getElem?_toArray, List.getElem?_map, ← stop]
    cases (along n).stretches.reverse[i]? <;> rfl
  · unfold Program.of
    rw [stretches, List.map_reverse]
  · have each := opening.remarks_iff course lt behind q
    rw [← List.mem_reverse] at each
    refine each.trans (or_congr_right ?_)
    unfold Program.of
    simp only [List.mem_reverse]

end

/-- A line comment and the end of its line, put in front of the first token on a line: the same is read,
and the comment. -/
theorem Program.read?_row {d : Dialect} (untyped : d.typed = false) {a b body indent : Text}
    (eol : LineEnding) {p : Program} (read : Program.read? d (a ++ b) = some p)
    (opens : ∃ st ∈ p.stretches, st.lo = bytes a ∧ st.fresh = true) (blank : Run (lastLine a))
    (plain : ∀ c ∈ body, isLineEnd c = false) (free : Run indent) :
    ∃ p', Program.read? d (a ++ (Gap.row body eol indent ++ b)) = some p' ∧
      p.Gains (bytes a) (bytes (Gap.row body eol indent))
        ⟨.line, body, bytes a, bytes a + 2 + bytes body⟩ p' := by
  unfold Program.read? at read
  split at read
  next terms s reading =>
    split at read
    next settled =>
      cases read
      unfold Program.reading? at reading
      obtain ⟨suffix, size⟩ := interpreterLine_suffix (a ++ b)
      have within := interpreterLine_at (a ++ b)
      generalize line : interpreterLine (a ++ b) = front at reading suffix size within
      obtain ⟨pos, rest⟩ := front
      dsimp only at reading
      obtain ⟨n, along, first, rfl, course⟩ := (items (rules limit)).exists_course reading
        ⟨pos, rest, rfl⟩ ⟨_, .start within⟩
      obtain ⟨st, mem, start, fresh⟩ := opens
      obtain ⟨j, lt, lo, fresh⟩ := course.exists_token (Nat.le_refl n) (List.mem_reverse.mp mem) fresh
      obtain ⟨z, g, opening⟩ := course.exists_opening (a := a) (b := b) lt (by rw [first]; exact suffix)
        (by rw [first]; exact size) (lo.trans start) fresh
      have regap := opening.regap blank eol course lt plain free
      obtain ⟨x, split⟩ := course.rest_suffix (Nat.zero_le j) (Nat.le_of_lt lt)
      rw [← first] at reading
      obtain ⟨t, reading', behind⟩ := regap.run _ untyped reading split.symm
      rw [opening.passed_row blank eol plain free] at behind
      refine ⟨.of terms t, ?_, opening.gains course lt behind terms⟩
      rw [first, opening.rest, ← List.append_assoc] at split
      have line' : interpreterLine (a ++ (Gap.row body eol indent ++ b)) =
          (pos, x ++ g ++ (Gap.row body eol indent ++ b)) :=
        interpreterLine_append blank (line.trans (congrArg (Prod.mk pos) split.symm)) (by rintro ⟨⟩)
      unfold Program.read? Program.reading?
      rw [line', List.append_assoc]
      rw [first] at reading'
      dsimp only
      rw [show (items (rules limit)).run _ (Reading.start pos _) = _ from reading']
      exact if_pos settled
    next => cases read
  next => cases read

end Quell.Grammar
