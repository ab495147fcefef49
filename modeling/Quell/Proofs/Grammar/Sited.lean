import Quell.Grammar.Program
import Quell.Proofs.Grammar.Rest

/-!
What is read stands in the text.

A token, a comment and a reading are in place when their offsets cut the text and the characters
they hold are the ones that stand there. The token that comes next is in place, and so are the
comments in front of it: `next_fits`. An answer of a reader is sited when every offset in it is a
cut of the text.
-/
namespace Quell

namespace Text

def At (t : Text) (n : Nat) (r : Text) : Prop := ∃ a b, t = a ++ r ++ b ∧ bytes a = n

theorem take_front {x r cs : Text} (e : x ++ r = cs) : cs.take (cs.length - r.length) = x := by
  rw [← e, List.length_append, Nat.add_sub_cancel, List.take_left]

namespace At

variable {t r : Text} {n : Nat}

theorem whole (t : Text) : At t 0 t := ⟨[], [], by simp, rfl⟩

theorem cut (h : At t n r) : Cut t n := by
  obtain ⟨a, b, rfl, e⟩ := h
  exact ⟨a, r ++ b, List.append_assoc .., e⟩

theorem front {x y : Text} (h : At t n (x ++ y)) : At t n x := by
  obtain ⟨a, b, rfl, e⟩ := h
  exact ⟨a, y ++ b, by simp only [List.append_assoc], e⟩

theorem behind {x y : Text} (h : At t n (x ++ y)) : At t (n + bytes x) y := by
  obtain ⟨a, b, rfl, rfl⟩ := h
  exact ⟨a ++ x, b, by simp only [List.append_assoc], bytes_append a x⟩

theorem slice (h : At t n r) : slice? n (n + bytes r) t = some r := by
  obtain ⟨a, b, rfl, rfl⟩ := h
  exact slice?_append a r b

theorem suffix {s : Text} (h : At t n r) (e : s <:+ r) :
    At t (n + bytes (r.take (r.length - s.length))) s := by
  obtain ⟨x, e⟩ := e
  rw [take_front e]
  exact (e ▸ h : At t n (x ++ s)).behind

theorem drop {x : Text} (h : At t n r) (e : x <+: r) : At t (n + bytes x) (r.drop x.length) := by
  rw [List.prefix_iff_eq_append.mp e |>.symm] at h
  exact h.behind

end At

theorem take_suffix {r cs : Text} (e : r <:+ cs) : cs.take (cs.length - r.length) ++ r = cs := by
  obtain ⟨x, e⟩ := e
  rw [take_front e, e]

theorem splitOnce?_eq {sep cs a b : Text} (h : splitOnce? sep cs = some (a, b)) :
    a ++ sep ++ b = cs := by
  induction cs generalizing a with
  | nil =>
    rw [splitOnce?] at h
    split at h
    · rename_i empty
      cases h
      simp [List.isEmpty_iff.mp empty]
    · cases h
  | cons c cs ih =>
    rw [splitOnce?] at h
    split at h
    · rename_i rest after
      cases h
      exact after?_suffix after
    · obtain ⟨⟨a', b'⟩, found, e⟩ := Option.map_eq_some_iff.mp h
      cases e
      rw [List.cons_append, List.cons_append, ih found]

end Text

namespace Grammar

open Text

/-! Comments between tokens. -/

/-- The comment stands in the text, delimiters included. -/
def Remark.Fits (t : Text) (r : Remark) : Prop :=
  slice? r.lo r.hi t = some (Comment.delimit r.kind r.text)

def Passed (t : Text) (lo : Nat) : Nat → List Remark → Prop
  | hi, [] => lo ≤ hi
  | hi, r :: rs => r.hi ≤ hi ∧ r.Fits t ∧ Passed t lo r.lo rs

namespace Passed

variable {t : Text} {lo mid hi : Nat} {rs : List Remark}

theorem le (h : Passed t lo hi rs) : lo ≤ hi := by
  induction rs generalizing hi with
  | nil => exact h
  | cons r rs ih =>
    have := (slice?_cuts h.2.1).2.2
    have := ih h.2.2
    have := h.1
    omega

theorem mono (h : Passed t lo mid rs) (le : mid ≤ hi) : Passed t lo hi rs := by
  cases rs with
  | nil => exact Nat.le_trans h le
  | cons r rs => exact ⟨Nat.le_trans h.1 le, h.2⟩

theorem append {more : List Remark} (h : Passed t lo mid rs) (h' : Passed t mid hi more) :
    Passed t lo hi (more ++ rs) := by
  induction more generalizing hi with
  | nil => exact h.mono h'
  | cons r more ih => exact ⟨h'.1, h'.2.1, ih h'.2.2⟩

theorem fits (h : Passed t lo hi rs) : ∀ r ∈ rs, r.Fits t ∧ lo ≤ r.lo ∧ r.hi ≤ hi := by
  induction rs generalizing hi with
  | nil => nofun
  | cons r rs ih =>
    have le := (slice?_cuts h.2.1).2.2
    intro q hq
    rcases List.mem_cons.mp hq with rfl | hq
    · exact ⟨h.2.1, h.2.2.le, h.1⟩
    · obtain ⟨fits, above, below⟩ := ih h.2.2 q hq
      exact ⟨fits, above, Nat.le_trans below (Nat.le_trans le h.1)⟩

theorem pairwise (h : Passed t lo hi rs) : rs.Pairwise fun a b => b.hi ≤ a.lo := by
  induction rs generalizing hi with
  | nil => exact .nil
  | cons r rs ih => exact .cons (fun q hq => (h.2.2.fits q hq).2.2) (ih h.2.2)

end Passed

/-- A gap under way, which started at `lo`. -/
structure Gap.Fits (t : Text) (lo : Nat) (g : Gap) : Prop where
  rest : At t g.pos g.rest
  passed : Passed t lo g.pos g.remarks

namespace Gap.Fits

variable {t cs : Text} {lo : Nat} {g : Gap} {fresh torn : Bool}

theorem char {c : Char} (h : g.Fits t lo) (e : g.rest = c :: cs) :
    Gap.Fits t lo ⟨g.pos + c.utf8Size, cs, fresh, g.remarks, torn⟩ := by
  have here := h.rest
  rw [e] at here
  exact ⟨At.behind (x := [c]) here, h.passed.mono (Nat.le_add_right _ _)⟩

theorem comment {kind : CommentKind} {body : Text} {hi : Nat} (h : g.Fits t lo)
    (e : g.rest = Comment.delimit kind body ++ cs)
    (size : hi = g.pos + bytes (Comment.delimit kind body)) :
    Gap.Fits t lo ⟨hi, cs, fresh, ⟨kind, body, g.pos, hi⟩ :: g.remarks, torn⟩ := by
  subst size
  have here : At t g.pos (Comment.delimit kind body ++ cs) := e ▸ h.rest
  exact ⟨here.behind, Nat.le_refl _, here.front.slice, h.passed⟩

end Gap.Fits

theorem bytes_delimit (kind : CommentKind) (body : Text) :
    bytes (Comment.delimit kind body) = (match kind with | .line => 2 | .block => 4) + bytes body := by
  have slash : '/'.utf8Size = 1 := rfl
  have star : '*'.utf8Size = 1 := rfl
  cases kind with
  | line =>
    simp only [Comment.delimit, bytes_cons, slash]
    omega
  | block =>
    simp only [Comment.delimit, bytes_cons, bytes_append, bytes_nil, slash, star]
    omega

theorem skip_fits {t : Text} {lo : Nat} (fuel : Nat) {g : Gap} (h : g.Fits t lo) :
    (Gap.skip fuel g).Fits t lo := by
  fun_induction Gap.skip fuel g with
  | case1 => exact h
  | case2 fuel g cs e body hi ih =>
    have parts : body ++ cs.drop body.length = cs :=
      List.prefix_iff_eq_append.mp (List.takeWhile_prefix _)
    exact ih (h.comment (by rw [e, Comment.delimit, List.cons_append, List.cons_append, parts])
      (by rw [bytes_delimit, ← Nat.add_assoc]))
  | case3 fuel g cs e body rest found hi ih =>
    have parts := splitOnce?_eq found
    refine ih (h.comment ?_ (by rw [bytes_delimit, ← Nat.add_assoc]))
    simp only [e, ← parts, Comment.delimit, List.cons_append, List.append_assoc]
  | case4 => exact ⟨h.rest, h.passed⟩
  | case5 fuel g c cs _ _ e _ ih => exact ih (h.char e)
  | case6 fuel g c cs _ _ e _ _ ih => exact ih (h.char e)
  | case7 => exact h
  | case8 => exact h

/-! Tokens. -/

/-- The token stands in the text. -/
structure Token.Fits (t : Text) (k : Token) : Prop where
  here : At t k.lo k.here
  suffix : k.rest <:+ k.here

theorem next_fits {t rest : Text} {pos : Nat} (fresh : Bool) (h : At t pos rest) :
    (Token.next pos rest fresh).Fits t ∧
      Passed t pos (Token.next pos rest fresh).lo (Token.next pos rest fresh).remarks := by
  have gap : (Gap.skip rest.length { pos, rest, fresh }).Fits t pos :=
    skip_fits rest.length ⟨h, Nat.le_refl _⟩
  unfold Token.next
  generalize Gap.skip rest.length { pos, rest, fresh } = g at gap
  dsimp only
  split
  · exact ⟨⟨gap.rest, List.suffix_refl _⟩, gap.passed⟩
  · exact ⟨⟨gap.rest, (read_cases g.fresh g.rest).1⟩, gap.passed⟩

/-! Readings. -/

/-- Where a reading stands in the text, and what it has passed. -/
structure Reading.Fits (t : Text) (s : Reading) : Prop where
  rest : At t s.last s.rest
  token : s.token.Fits t
  passed : Passed t 0 s.last s.remarks
  ahead : Passed t s.last s.token.lo s.token.remarks
  stretches : ∀ x ∈ s.stretches, Cut t x.lo ∧ Cut t x.hi

namespace Reading.Fits

variable {t : Text} {s s' : Reading}

theorem start {pos : Nat} {rest : Text} (h : At t pos rest) : (Reading.start pos rest).Fits t := by
  obtain ⟨next, ahead⟩ := next_fits true h
  exact ⟨h, next, Nat.zero_le _, ahead, List.forall_mem_nil _⟩

theorem behind {text words rest : Text} (h : s.Fits t)
    (e : text ++ (words ++ rest) = s.token.here) : (s.behind text words rest).Fits t := by
  have here : At t s.token.lo (text ++ (words ++ rest)) := e ▸ h.token.here
  have mid := here.behind
  obtain ⟨next, ahead⟩ := next_fits false mid.behind
  refine ⟨mid.behind, next, h.passed.append (h.ahead.mono ?_), ahead, fun x mem => ?_⟩
  · exact Nat.le_trans (Nat.le_add_right _ _) (Nat.le_add_right _ _)
  · rcases List.mem_append.mp mem with words | old
    · split at words
      · cases words
      · rw [List.mem_singleton.mp words]
        exact ⟨mid.cut, mid.behind.cut⟩
    · rcases List.mem_cons.mp old with rfl | old
      · exact ⟨here.cut, mid.cut⟩
      · exact h.stretches x old

theorem take? {how : Reach} {x : Text × Text} (h : s.Fits t) (taken : s.take? how = some (x, s')) :
    s'.Fits t := by
  unfold Reading.take? at taken
  split at taken
  next rest found =>
    split at found
    next =>
      dsimp only at taken
      generalize words : (if how = .words then rest.takeWhile (!endsMarkupText ·) else []) = w at taken
      have start : w <+: rest := by
        rw [← words]
        split
        · exact List.takeWhile_prefix _
        · exact List.nil_prefix
      split at taken
      · cases taken
      · cases taken
        refine h.behind ?_
        rw [List.prefix_iff_eq_append.mp start]
        exact take_suffix (Reach.rest?_suffix h.token.suffix found)
    next => cases found
  next => cases taken

end Reading.Fits

/-! Answers. -/

/-- What every way to take text preserves, every reader preserves. -/
theorem Reader.preserves {α : Type} {P : Reading → Prop}
    (step : ∀ {how s x s'}, P s → s.take? how = some (x, s') → P s') (p : Reader α) {c : Scope}
    {s s' : Reading} {a : α} (run : p.run c s = some (a, s')) (h : P s) : P s' :=
  let same : Likeness := {
    Alike := Eq
    Astray := P
    shows := fun e => e ▸ ⟨rfl, rfl, rfl⟩
    takes := fun e taken => .inr ⟨_, e ▸ taken, rfl⟩
    strays := step }
  (p.uniform same c (.inr fun _ _ e => e) s a s' run).1 h

inductive Term.All (P : Label → Nat → Nat → Prop) : Term → Prop
  | mk {label : Label} {lo hi : Nat} {parts : List Term} (here : P label lo hi)
      (inside : ∀ p ∈ parts, Term.All P p) : Term.All P (.mk label lo hi parts)

theorem Term.all_mk {P : Label → Nat → Nat → Prop} {label : Label} {lo hi : Nat} {parts : List Term} :
    (Term.mk label lo hi parts).All P ↔ P label lo hi ∧ ∀ p ∈ parts, p.All P :=
  ⟨fun ⟨here, inside⟩ => ⟨here, inside⟩, fun ⟨here, inside⟩ => .mk here inside⟩

theorem Term.All.imp {P Q : Label → Nat → Nat → Prop} {t : Term} (h : t.All P)
    (imp : ∀ label lo hi, P label lo hi → Q label lo hi) : t.All Q := by
  induction h with
  | mk here _ ih => exact .mk (imp _ _ _ here) ih

/-- Its offsets are cuts of the text. -/
def Term.Sited (t : Text) : Term → Prop := Term.All fun _ lo hi => Cut t lo ∧ Cut t hi

theorem Term.sited_mk {t : Text} {label : Label} {lo hi : Nat} {parts : List Term} :
    (Term.mk label lo hi parts).Sited t ↔ Cut t lo ∧ Cut t hi ∧ ∀ p ∈ parts, p.Sited t :=
  Term.all_mk.trans and_assoc

section

variable {P : Label → Nat → Nat → Prop} {ss : Array Stretch} {stop : Nat}

mutual

/-- The offsets of every part are those of two stretches. -/
theorem Term.placed_all
    (hole : ∀ i j, P (.shown .emptyHole) (ss.getD i ⟨stop, stop, false, false⟩).hi
      (ss.getD j ⟨stop, stop, false, false⟩).lo)
    (full : ∀ label ≠ .shown .emptyHole, ∀ i j, P label (ss.getD i ⟨stop, stop, false, false⟩).lo
      (ss.getD j ⟨stop, stop, false, false⟩).hi) :
    (e : Term) → (e.placed ss stop).All P
  | .mk label lo hi ps => by
    rw [Term.placed]
    split
    next empty =>
      subst empty
      exact .mk (hole lo hi) (List.forall_mem_nil _)
    next other => exact .mk (full label other lo hi) (placedAll_all hole full ps)

theorem placedAll_all
    (hole : ∀ i j, P (.shown .emptyHole) (ss.getD i ⟨stop, stop, false, false⟩).hi
      (ss.getD j ⟨stop, stop, false, false⟩).lo)
    (full : ∀ label ≠ .shown .emptyHole, ∀ i j, P label (ss.getD i ⟨stop, stop, false, false⟩).lo
      (ss.getD j ⟨stop, stop, false, false⟩).hi) :
    (es : List Term) → ∀ e ∈ placedAll ss stop es, e.All P
  | [] => by
    rw [placedAll]
    exact List.forall_mem_nil _
  | e :: es => by
    rw [placedAll]
    exact List.forall_mem_cons.mpr ⟨e.placed_all hole full, placedAll_all hole full es⟩

end

theorem cut_getD {t : Text} (cuts : ∀ x ∈ ss, Cut t x.lo ∧ Cut t x.hi) (stops : Cut t stop) (n : Nat) :
    Cut t (ss.getD n ⟨stop, stop, false, false⟩).lo ∧
      Cut t (ss.getD n ⟨stop, stop, false, false⟩).hi := by
  rw [Array.getD_eq_getD_getElem?]
  cases found : ss[n]? with
  | none => exact ⟨stops, stops⟩
  | some x => exact cuts x (Array.mem_of_getElem? found)

end

theorem interpreterLine_at (source : Text) :
    At source (interpreterLine source).1 (interpreterLine source).2 := by
  unfold interpreterLine
  split
  · rename_i cs
    have line : '#' :: '!' :: cs.takeWhile (!isLineEnd ·) <+: '#' :: '!' :: cs := by
      simp only [List.cons_prefix_cons, true_and]
      exact List.takeWhile_prefix _
    have behind := (At.whole ('#' :: '!' :: cs)).drop line
    have size : ∀ body, bytes ('#' :: '!' :: body) = 2 + bytes body := fun body => by
      have : '#'.utf8Size = 1 := rfl
      have : '!'.utf8Size = 1 := rfl
      simp only [bytes_cons]
      omega
    rwa [size, Nat.zero_add] at behind
  · exact At.whole _

/-- Every offset of a program is a cut of its text. Its comments stand in the text, each behind the
one before. -/
theorem read?_sited {d : Dialect} {source : Text} {p : Program}
    (h : Program.read? d source = some p) :
    (∀ e ∈ p.terms, e.Sited source) ∧ ∃ hi, Passed source 0 hi p.remarks.reverse := by
  unfold Program.read? at h
  split at h
  · rename_i terms s read
    split at h
    · cases h
      have fits : s.Fits source :=
        Reader.preserves Reading.Fits.take? _ read (.start (interpreterLine_at source))
      have each : ∀ x ∈ s.stretches.reverse.toArray, Cut source x.lo ∧ Cut source x.hi := fun x mem =>
        fits.stretches x (List.mem_reverse.mp (List.mem_toArray.mp mem))
      have cuts := cut_getD each fits.token.here.cut
      refine ⟨placedAll_all (fun i j => ⟨(cuts i).2, (cuts j).1⟩)
        (fun _ _ i j => ⟨(cuts i).1, (cuts j).2⟩) terms, s.token.lo, ?_⟩
      rw [Program.of, List.reverse_reverse]
      exact fits.passed.append fits.ahead
    · cases h
  · cases h

end Grammar
end Quell
