import Quell.Proofs.Print.Sheet

/-!
Where a sheet stands.

Strokes leave the source spent up to one of their own offsets (`strikeAll_pos`). A sheet that is
copied on from an earlier line ends in the line of the source (`flush_lastLine`), and leading
comments are put on lines of their own there (`lead_first`, `lead_later`).
-/
namespace Quell

open Text

def Stroke.stops : Stroke → List Nat
  | .start lo _ => [lo]
  | .reach target => [target]
  | .inside opened ends => opened.toList ++ ends
  | .behind anchor _ _ => anchor.toList
  | .put _ => []

namespace Press

variable {press : Press} {sheet : Sheet} {P : Nat → Prop}

theorem flushSheet_pos {target : Nat} {s : Sheet} (fair : press.Fair)
    (start : Cut press.source sheet.pos) (cut : Cut press.source target)
    (h : press.flushSheet sheet target = .ok s) : s.pos = max sheet.pos target := by
  obtain ⟨t, flushed⟩ := flushSheet_ok fair start cut
  cases flushed.symm.trans h
  rfl

theorem flushSheet_keeps {target : Nat} {s : Sheet} (fair : press.Fair)
    (start : Cut press.source sheet.pos) (cut : Cut press.source target)
    (h : press.flushSheet sheet target = .ok s) (here : P sheet.pos) (there : P target) : P s.pos := by
  rw [flushSheet_pos fair start cut h]
  rcases Nat.le_total sheet.pos target with le | le
  · rw [Nat.max_eq_right le]
    exact there
  · rw [Nat.max_eq_left le]
    exact here

theorem inside_stops {Q : Nat → Prop} {opened : Option Nat} {ends : List Nat} {pos : Nat} (here : Q pos)
    (stops : ∀ n ∈ (Stroke.inside opened ends).stops, Q n) : Q (ends.foldl max (opened.getD pos)) :=
  inside_keeps here (fun o mem => stops o (List.mem_append_left _ (Option.mem_toList.mpr mem)))
    fun e mem => stops e (List.mem_append_right _ mem)

theorem strike_pos {stroke : Stroke} {s : Sheet} (fair : press.Fair)
    (start : Cut press.source sheet.pos) (fits : stroke.Fits press.source)
    (stops : ∀ n ∈ stroke.stops, P n) (here : P sheet.pos)
    (h : press.strike sheet stroke = .ok s) : P s.pos := by
  cases stroke with
  | start lo comments =>
    obtain ⟨mid, flushed, led⟩ := bind_eq_ok h
    rw [leadSheet_pos led]
    exact flushSheet_keeps fair start fits flushed here (stops lo List.mem_cons_self)
  | reach target => exact flushSheet_keeps fair start fits h here (stops target List.mem_cons_self)
  | inside opened ends =>
    -- the farthest of the ends, or where the brace or the sheet stands
    have cut := inside_keeps start fits.1 fits.2
    exact flushSheet_keeps fair start cut h here (inside_stops here stops)
  | behind anchor margin comments =>
    cases anchor with
    | none =>
      obtain ⟨indent, -, trailed⟩ := bind_eq_ok h
      rw [trailAll_pos trailed]
      exact here
    | some offset =>
      obtain ⟨mid, flushed, h⟩ := bind_eq_ok h
      obtain ⟨indent, -, trailed⟩ := bind_eq_ok h
      rw [trailAll_pos trailed]
      exact flushSheet_keeps fair start (fits.1 offset rfl) flushed here (stops offset List.mem_cons_self)
  | put t =>
    cases h
    exact here

theorem strikeAll_pos {strokes : List Stroke} {s : Sheet} (fair : press.Fair)
    (start : Cut press.source sheet.pos) (fits : ∀ st ∈ strokes, st.Fits press.source)
    (stops : ∀ st ∈ strokes, ∀ n ∈ st.stops, P n) (here : P sheet.pos)
    (h : strokes.foldlM press.strike sheet = .ok s) : P s.pos :=
  (foldlM_keeps (I := fun t => Cut press.source t.pos ∧ P t.pos)
    (fun st mem _ _ kept step => ⟨strike_cut kept.1 step,
      strike_pos fair kept.1 (fits st mem) (stops st mem) kept.2 step⟩) ⟨start, here⟩ h).2

def Led : List Stroke → Prop
  | [] => True
  | .start _ _ :: _ => True
  | _ => False

theorem strikeAll_led {strokes : List Stroke} {s : Sheet} (fair : press.Fair) (led : Led strokes)
    (fits : ∀ st ∈ strokes, st.Fits press.source) (stops : ∀ st ∈ strokes, ∀ n ∈ st.stops, P n)
    (h : strokes.foldlM press.strike {} = .ok s) : s = {} ∨ P s.pos := by
  cases strokes with
  | nil =>
    cases h
    exact .inl rfl
  | cons st strokes =>
    cases st with
    | start lo comments =>
      refine .inr ?_
      rw [List.foldlM_cons] at h
      obtain ⟨mid, first, rest⟩ := bind_eq_ok h
      have zero : Cut press.source (Sheet.pos {}) := Cut.zero _
      obtain ⟨flat, flushed, led⟩ := bind_eq_ok first
      have cut : Cut press.source lo := fits _ List.mem_cons_self
      have pos : mid.pos = lo := by
        rw [leadSheet_pos led, flushSheet_pos fair zero cut flushed]
        exact Nat.max_eq_right (Nat.zero_le lo)
      refine strikeAll_pos fair (strike_cut zero first)
        (fun q hq => fits q (List.mem_cons_of_mem _ hq))
        (fun q hq => stops q (List.mem_cons_of_mem _ hq)) ?_ rest
      rw [pos]
      exact stops _ List.mem_cons_self lo List.mem_cons_self
    | reach => exact led.elim
    | inside => exact led.elim
    | behind => exact led.elim
    | put => exact led.elim

end Press

namespace Text

def LineApart (source : Text) (n lo : Nat) : Prop :=
  ∃ t, slice? n lo source = some t ∧ '\n' ∈ t

theorem LineApart.le {source : Text} {n lo : Nat} (h : LineApart source n lo) : n ≤ lo := by
  obtain ⟨t, slice, -⟩ := h
  exact (slice?_cuts slice).2.2

theorem LineApart.lines_lt {source : Text} {n lo : Nat} (h : LineApart source n lo) :
    (LineIndex.of source).lineOf n < (LineIndex.of source).lineOf lo := by
  obtain ⟨t, slice, mem⟩ := h
  rw [lineOf_slice slice]
  exact Nat.lt_add_of_pos_right (List.count_pos_iff.mpr mem)

theorem LineApart.lt {source : Text} {n lo : Nat} (h : LineApart source n lo) : n < lo := by
  by_contra le
  exact absurd (LineIndex.lineOf_mono _ (Nat.le_of_not_lt le)) (Nat.not_le_of_lt h.lines_lt)

theorem LineApart.lower {source : Text} {m n lo : Nat} (h : LineApart source n lo)
    (cut : Cut source m) (le : m ≤ n) : LineApart source m lo := by
  obtain ⟨t, slice, mem⟩ := h
  obtain ⟨u, front⟩ := cut.slice (slice?_cuts slice).1 le
  exact ⟨u ++ t, slice?_join front slice, List.mem_append_right u mem⟩

theorem lastLine_append {x t : Text} (h : '\n' ∈ t) : lastLine (x ++ t) = lastLine t := by
  obtain ⟨a, split, free, start⟩ := lastLine_spec t
  have ends : ∃ y, a = y ++ ['\n'] := by
    rcases start with rfl | ends
    · rw [List.nil_append] at split
      rw [split] at h
      exact absurd h free
    · exact ends
  obtain ⟨y, rfl⟩ := ends
  have joined : x ++ t = (x ++ y ++ ['\n']) ++ lastLine t := by
    rw [List.append_assoc, List.append_assoc, ← List.append_assoc y, ← split]
  rw [joined, lastLine_eq (.inr ⟨x ++ y, rfl⟩) free]

theorem lastLine_append_free {x m : Text} (free : '\n' ∉ m) :
    lastLine (x ++ m) = lastLine x ++ m := by
  obtain ⟨z, split, none, start⟩ := lastLine_spec x
  have joined : x ++ m = z ++ (lastLine x ++ m) := by rw [← List.append_assoc, ← split]
  rw [joined, lastLine_eq start]
  rw [List.mem_append, not_or]
  exact ⟨none, free⟩

def LineStart (t : Text) : Prop := t = [] ∨ ∃ x, t = x ++ ['\n']

theorem LineStart.ending (x : Text) (eol : LineEnding) : LineStart (x ++ eol.text) := by
  cases eol with
  | lf => exact .inr ⟨x, rfl⟩
  | crlf => exact .inr ⟨x ++ ['\r'], (List.append_assoc x ['\r'] ['\n']).symm⟩

end Text

namespace Press

variable {press : Press} {sheet : Sheet}

theorem flush_lastLine {a b : Text} {s : Sheet} (fair : press.Fair)
    (split : press.source = a ++ b) (start : Cut press.source sheet.pos)
    (early : sheet = {} ∨ LineApart press.source sheet.pos (bytes a))
    (ends : ∀ r ∈ press.revisions, r.hi ≤ bytes a → LineApart press.source r.hi (bytes a))
    (h : press.flushSheet sheet (bytes a) = .ok s) : lastLine s.text = lastLine a := by
  have cut : Cut press.source (bytes a) := ⟨a, b, split, rfl⟩
  have copied : ∀ {x y : Sheet}, LineApart press.source x.pos (bytes a) →
      press.copySheet x (bytes a) = .ok y → lastLine y.text = lastLine a := by
    intro x y apart copy
    obtain ⟨t, slice, mem⟩ := apart
    cases (copySheet_eq slice).symm.trans copy
    obtain ⟨a', b', same, pos, stop⟩ := slice?_eq_some.mp slice
    have front : a' ++ t = a :=
      (append_inj_bytes (same.symm.trans split) (by rw [bytes_append, pos, stop])).1
    rw [lastLine_append mem, ← front, lastLine_append mem]
  rcases Nat.lt_or_ge sheet.pos (bytes a) with lt | ge
  · rw [flushSheet_go fair cut lt] at h
    obtain ⟨mid, revised, copy⟩ := bind_eq_ok h
    rcases List.eq_nil_or_concat (press.due sheet.pos (bytes a)) with none | ⟨rs, r, due⟩
    · rw [none] at revised
      cases revised
      rcases early with rfl | apart
      · have whole : slice? 0 (bytes a) press.source = some a :=
          slice?_eq_some.mpr ⟨[], b, by rw [List.nil_append, split], rfl, Nat.zero_add _⟩
        cases (@copySheet_eq press {} (bytes a) a whole).symm.trans copy
        rfl
      · exact copied apart copy
    · have last : mid.pos = r.hi := by
        rw [due, List.concat_eq_append, List.foldlM_append] at revised
        obtain ⟨before, -, final⟩ := bind_eq_ok revised
        rw [List.foldlM_cons] at final
        obtain ⟨put, revise, done⟩ := bind_eq_ok final
        cases done
        obtain ⟨sheet, _, made⟩ := bind_eq_ok revise
        cases made
        rfl
      have mem : r ∈ press.due sheet.pos (bytes a) := by rw [due]; simp
      obtain ⟨known, -, le⟩ := mem_due mem
      exact copied (by rw [last]; exact ends r known le) copy
  · rw [flushSheet_stay ge] at h
    cases h
    rcases early with rfl | ⟨t, slice, mem⟩
    · have none : a = [] := bytes_eq_zero.mp (Nat.le_zero.mp ge)
      rw [none]
    · have stop := slice?_bytes slice
      have none : t = [] := bytes_eq_zero.mp (by omega)
      rw [none] at mem
      cases mem

variable {lo : Nat} {indent : Text}

def rows (press : Press) (indent : Text) (cs : List Comment) : Text :=
  cs.flatMap fun c => c.render ++ press.eol ++ indent

theorem foldl_rows (cs : List Comment) :
    cs.foldl (fun s c => ((s.add c.render).add press.eol).add indent) sheet =
      sheet.add (press.rows indent cs) := by
  induction cs generalizing sheet with
  | nil => simp [rows, Sheet.add]
  | cons c cs ih =>
    rw [List.foldl_cons, ih]
    simp [rows, Sheet.add, List.append_assoc]

theorem lead_first (margin : press.lineIndent lo = .ok indent)
    (first : press.firstOnLine lo = .ok true) (cs : List Comment) :
    press.leadSheet sheet lo cs = .ok (sheet.add (press.rows indent cs)) := by
  cases cs with
  | nil => simp [leadSheet, rows, Sheet.add]
  | cons c cs =>
    unfold leadSheet
    rw [margin, first]
    show Except.ok _ = Except.ok _
    rw [foldl_rows]
    rfl

theorem lead_later (margin : press.lineIndent lo = .ok indent)
    (first : press.firstOnLine lo = .ok false) {cs : List Comment} (some : cs ≠ []) :
    press.leadSheet sheet lo cs =
      .ok (((sheet.trimEnd.add press.eol).add indent).add (press.rows indent cs)) := by
  cases cs with
  | nil => exact absurd rfl some
  | cons c cs =>
    unfold leadSheet
    rw [margin, first]
    show Except.ok _ = Except.ok _
    rw [foldl_rows]
    rfl

theorem rows_append (cs ds : List Comment) :
    press.rows indent (cs ++ ds) = press.rows indent cs ++ press.rows indent ds :=
  List.flatMap_append

theorem rows_indent (cs : List Comment) {above : Text} (start : LineStart above) :
    ∃ above', above ++ indent ++ press.rows indent cs = above' ++ indent ∧ LineStart above' := by
  induction cs generalizing above with
  | nil => exact ⟨above, List.append_nil _, start⟩
  | cons c cs ih =>
    obtain ⟨above', eq, start'⟩ :=
      ih (LineStart.ending (above ++ indent ++ c.render) press.doc.eol)
    refine ⟨above', ?_, start'⟩
    rw [← eq]
    simp [rows, eol]

/-- Room for a line behind a text: the text as it is, or a line break and an indentation in place of
the spaces and tabs at its end. -/
def MakesRoom (eol indent before front : Text) : Prop :=
  front = before ∨ ∃ kept run, Run run ∧ before = kept ++ run ∧ front = kept ++ eol ++ indent

/-- A comment behind the other ones in front of a node: it is followed by a line break and the
indentation. -/
theorem lead_more {first : Bool} (margin : press.lineIndent lo = .ok indent)
    (place : press.firstOnLine lo = .ok first) (cs : List Comment) (k : Comment) :
    ∃ before front, press.leadSheet sheet lo cs = .ok ⟨before, sheet.pos⟩ ∧
      press.leadSheet sheet lo (cs ++ [k]) =
        .ok ⟨front ++ k.render ++ press.eol ++ indent, sheet.pos⟩ ∧
      MakesRoom press.eol indent before front ∧
      (first = true → front = before ∧ before = sheet.text ++ press.rows indent cs) := by
  have last : press.rows indent (cs ++ [k]) =
      press.rows indent cs ++ (k.render ++ press.eol ++ indent) := by
    rw [rows_append]
    simp [rows]
  cases first with
  | true =>
    refine ⟨_, sheet.text ++ press.rows indent cs, lead_first margin place cs, ?_, .inl rfl,
      fun _ => ⟨rfl, rfl⟩⟩
    rw [lead_first margin place, last]
    simp [Sheet.add]
  | false =>
    have broken : press.leadSheet sheet lo (cs ++ [k]) =
        .ok ⟨((sheet.trimEnd.add press.eol).add indent).text ++ press.rows indent cs ++ k.render ++
          press.eol ++ indent, sheet.pos⟩ := by
      rw [lead_later margin place (by simp), last]
      simp [Sheet.add, Sheet.trimEnd]
    cases cs with
    | nil =>
      obtain ⟨run, whole, blank⟩ := exists_run sheet.text
      refine ⟨sheet.text, _, rfl, broken, .inr ⟨_, run, blank, whole, ?_⟩, nofun⟩
      simp [rows, Sheet.add, Sheet.trimEnd]
    | cons c cs =>
      exact ⟨_, _, lead_later margin place (List.cons_ne_nil c cs), broken, .inl rfl, nofun⟩

end Press
end Quell
