import Mathlib.Data.List.DropRight
import Quell.Proofs.Print.Strokes
import Quell.Proofs.Text.Segments

/-!
What markup shows of a text.

A text is shown line by line: the spaces and tabs at the start of every line but the first and at
the end of every line but the last go, and so do the lines of which nothing is left; the others are
joined with one space. Layout, that is spaces, tabs and line breaks, is therefore not shown where a
line break is in it, in front of a text (`clean_append`) or behind it (`clean_behind`).

A markup comment cuts a text in two. `CutAt.clean_eq` says when the two parts show what the whole
showed: there is only layout on one side of the cut, or the cut is in front of the first line break
and the text starts with neither space nor tab.
-/
namespace Quell.Text

def endsRow (c : Char) : Bool := c == '\n' || c == '\r'

def isLayout (c : Char) : Bool := Page.isSpaceOrTab c || endsRow c

def layout (t : Text) : Bool := t.all isLayout

/-- The lines of a text without the spaces and tabs around them; in front of the first line, if it
is the first of its text, and behind the last one they stay. -/
def stripRows : Bool → List Text → List Text
  | _, [] => []
  | first, [row] => [if first then row else row.dropWhile Page.isSpaceOrTab]
  | first, row :: next :: rows =>
    (if first then row else row.dropWhile Page.isSpaceOrTab).rdropWhile Page.isSpaceOrTab ::
      stripRows false (next :: rows)

def shownRows (first : Bool) (rows : List Text) : List Text :=
  (stripRows first rows).filter (!·.isEmpty)

def clean (t : Text) : Text := joinWith [' '] (shownRows true (t.splitOnP endsRow))

def cleanBehind (t : Text) : Text := joinWith [' '] (shownRows false (t.splitOnP endsRow))

theorem layout_iff {t : Text} : layout t = true ↔ ∀ c ∈ t, isLayout c = true := by
  simp [layout]

@[simp] theorem layout_append (a b : Text) : layout (a ++ b) = (layout a && layout b) := by
  simp [layout]

@[simp] theorem layout_cons (c : Char) (t : Text) : layout (c :: t) = (isLayout c && layout t) := by
  simp [layout]

def Bare (row : Text) : Prop := ∀ c ∈ row, Page.isSpaceOrTab c = true

theorem bare_of_layout {t : Text} (h : layout t = true) : ∀ row ∈ t.splitOnP endsRow, Bare row := by
  induction t with
  | nil => simp [List.splitOnP_nil, Bare]
  | cons c t ih =>
    rw [layout_cons, Bool.and_eq_true] at h
    rw [List.splitOnP_cons_eq_if_modifyHead]
    by_cases ends : endsRow c = true
    · rw [if_pos ends]
      simpa [Bare] using ih h.2
    · have tab : Page.isSpaceOrTab c = true := by simpa [isLayout, ends] using h.1
      obtain ⟨row, rows, split⟩ := List.exists_cons_of_ne_nil (List.splitOnP_ne_nil endsRow t)
      have each := ih h.2
      rw [if_neg ends]
      rw [split] at each ⊢
      simp only [List.modifyHead_cons, List.mem_cons, forall_eq_or_imp] at each ⊢
      exact ⟨by simpa [Bare, tab] using each.1, each.2⟩

section Rows

variable {first : Bool} {row : Text} {rows ls ms ms' : List Text}

theorem dropWhile_bare (bare : Bare row) : row.dropWhile Page.isSpaceOrTab = [] := by
  rw [List.dropWhile_eq_nil_iff]
  exact bare

theorem rdropWhile_bare (bare : Bare row) : row.rdropWhile Page.isSpaceOrTab = [] := by
  rw [List.rdropWhile_eq_nil_iff]
  exact bare

theorem shownRows_cons_bare (bare : Bare row) (ne : rows ≠ []) :
    shownRows first (row :: rows) = shownRows false rows := by
  obtain ⟨next, rows, rfl⟩ := List.exists_cons_of_ne_nil ne
  unfold shownRows
  rw [stripRows]
  cases first with
  | true => simp [rdropWhile_bare bare]
  | false => simp [dropWhile_bare bare]

theorem shownRows_append_bare (bare : ∀ l ∈ ls, Bare l) (some : ls ≠ []) (ne : ms ≠ []) :
    shownRows first (ls ++ ms) = shownRows false ms := by
  induction ls generalizing first with
  | nil => exact absurd rfl some
  | cons l ls ih =>
    rw [List.cons_append, shownRows_cons_bare (bare l (by simp)) (by simp [ne])]
    cases ls with
    | nil => rfl
    | cons l' ls => exact ih (fun x hx => bare x (by simp [hx])) (by simp)

theorem shownRows_bare (bare : ∀ m ∈ ms, Bare m) : shownRows false ms = [] := by
  induction ms with
  | nil => rfl
  | cons m ms ih =>
    cases ms with
    | nil => simp [shownRows, stripRows, dropWhile_bare (bare m (by simp))]
    | cons m' ms =>
      rw [shownRows_cons_bare (bare m (by simp)) (by simp)]
      exact ih fun x hx => bare x (by simp [hx])

theorem shownRows_append_congr (some : ls ≠ []) (ne : ms ≠ []) (ne' : ms' ≠ [])
    (bare : ∀ m ∈ ms, Bare m) (bare' : ∀ m ∈ ms', Bare m) :
    shownRows first (ls ++ ms) = shownRows first (ls ++ ms') := by
  induction ls generalizing first with
  | nil => exact absurd rfl some
  | cons l ls ih =>
    have step : ∀ {ns : List Text}, ns ≠ [] → shownRows first (l :: ns) =
        [(if first then l else l.dropWhile Page.isSpaceOrTab).rdropWhile
          Page.isSpaceOrTab].filter (!·.isEmpty) ++ shownRows false ns := by
      intro ns h
      obtain ⟨n, ns, rfl⟩ := List.exists_cons_of_ne_nil h
      unfold shownRows
      rw [stripRows, ← List.filter_append]
      rfl
    rw [List.cons_append, List.cons_append, step (by simp [ne]), step (by simp [ne'])]
    cases ls with
    | nil => rw [List.nil_append, List.nil_append, shownRows_bare bare, shownRows_bare bare']
    | cons l' ls => rw [ih (by simp)]

end Rows

section Clean

variable {X Y u w : Text} {c : Char}

theorem cleanBehind_cons (h : isLayout c = true) (t : Text) : cleanBehind (c :: t) = cleanBehind t := by
  unfold cleanBehind
  rw [List.splitOnP_cons_eq_if_modifyHead]
  by_cases ends : endsRow c = true
  · rw [if_pos ends, shownRows_cons_bare (by simp [Bare]) (List.splitOnP_ne_nil _ _)]
  · have tab : Page.isSpaceOrTab c = true := by simpa [isLayout, ends] using h
    obtain ⟨row, rows, split⟩ := List.exists_cons_of_ne_nil (List.splitOnP_ne_nil endsRow t)
    rw [if_neg ends, split, List.modifyHead_cons]
    unfold shownRows
    cases rows with
    | nil => simp only [stripRows, Bool.false_eq_true, if_false, List.dropWhile_cons_of_pos tab]
    | cons next rows =>
      simp only [stripRows, Bool.false_eq_true, if_false, List.dropWhile_cons_of_pos tab]

theorem cleanBehind_append (h : layout u = true) (t : Text) :
    cleanBehind (u ++ t) = cleanBehind t := by
  induction u with
  | nil => rfl
  | cons c u ih =>
    rw [layout_cons, Bool.and_eq_true] at h
    rw [List.cons_append, cleanBehind_cons h.1, ih h.2]

def Breaks (u : Text) : Prop := layout u = true ∧ ∃ c ∈ u, endsRow c = true

/-- Layout with a line break in it is not shown in front of a text, and keeps the blanks at the
start of the text from being shown. -/
theorem clean_append (breaks : Breaks u) (t : Text) : clean (u ++ t) = cleanBehind t := by
  obtain ⟨lay, c, mem, ends⟩ := breaks
  obtain ⟨a, b, rfl⟩ := List.append_of_mem mem
  rw [layout_append, layout_cons, Bool.and_eq_true, Bool.and_eq_true] at lay
  rw [← cleanBehind_append lay.2.2 t]
  unfold clean cleanBehind
  rw [List.append_assoc, List.cons_append, List.splitOnP_append_cons a _ ends,
    shownRows_append_bare (bare_of_layout lay.1) (List.splitOnP_ne_nil _ _)
      (List.splitOnP_ne_nil _ _)]

theorem clean_of_breaks (breaks : Breaks u) : clean u = [] := by
  have := clean_append breaks []
  rw [List.append_nil] at this
  rw [this]
  rfl

theorem cleanBehind_eq (flush : ∀ c ∈ Y.head?, Page.isSpaceOrTab c = false) :
    cleanBehind Y = clean Y := by
  unfold cleanBehind clean
  obtain ⟨row, rows, split⟩ := List.exists_cons_of_ne_nil (List.splitOnP_ne_nil endsRow Y)
  have start : row.dropWhile Page.isSpaceOrTab = row := by
    cases Y with
    | nil =>
      rw [List.splitOnP_nil] at split
      cases split
      rfl
    | cons c Y =>
      rw [List.splitOnP_cons_eq_if_modifyHead] at split
      by_cases ends : endsRow c = true
      · rw [if_pos ends] at split
        cases split
        rfl
      · obtain ⟨r, rs, split'⟩ := List.exists_cons_of_ne_nil (List.splitOnP_ne_nil endsRow Y)
        rw [if_neg ends, split', List.modifyHead_cons] at split
        cases split
        rw [List.dropWhile_cons_of_neg (by simpa using flush c rfl)]
  rw [split]
  unfold shownRows
  cases rows with
  | nil => simp [stripRows, start]
  | cons next rows => simp [stripRows, start]

theorem clean_behind (breaks : Breaks u) (lay : layout w = true) (X : Text) :
    clean (X ++ u ++ w) = clean (X ++ u) := by
  obtain ⟨lay', c, mem, ends⟩ := breaks
  obtain ⟨a, b, rfl⟩ := List.append_of_mem mem
  rw [layout_append, layout_cons, Bool.and_eq_true, Bool.and_eq_true] at lay'
  have long : X ++ (a ++ c :: b) ++ w = (X ++ a) ++ c :: (b ++ w) := by simp
  have short : X ++ (a ++ c :: b) = (X ++ a) ++ c :: b := by simp
  have blank : layout (b ++ w) = true := by rw [layout_append, lay'.2.2, lay]; rfl
  unfold clean
  rw [long, short, List.splitOnP_append_cons _ _ ends, List.splitOnP_append_cons _ _ ends,
    shownRows_append_congr (List.splitOnP_ne_nil _ _) (List.splitOnP_ne_nil _ _)
      (List.splitOnP_ne_nil _ _) (bare_of_layout blank) (bare_of_layout lay'.2.2)]

end Clean

def ink (t : Text) : Text := t.filter (!isBlank ·)

@[simp] theorem ink_append (a b : Text) : ink (a ++ b) = ink a ++ ink b := List.filter_append ..

theorem ink_of_blank {t : Text} (blank : allBlank t = true) : ink t = [] := by
  rw [ink, List.filter_eq_nil_iff]
  intro c hc
  simp [allBlank_iff.mp blank c hc]

theorem ink_dropWhile (t : Text) : ink (t.dropWhile Page.isSpaceOrTab) = ink t := by
  have blank : allBlank (t.takeWhile Page.isSpaceOrTab) = true :=
    allBlank_iff.mpr fun c hc => isBlank_of_isSpaceOrTab (List.mem_takeWhile_imp hc)
  conv_rhs => rw [← List.takeWhile_append_dropWhile (p := Page.isSpaceOrTab) (l := t)]
  rw [ink_append, ink_of_blank blank, List.nil_append]

theorem ink_rdropWhile (t : Text) : ink (t.rdropWhile Page.isSpaceOrTab) = ink t := by
  have blank : allBlank (t.rtakeWhile Page.isSpaceOrTab) = true :=
    allBlank_iff.mpr fun c hc => isBlank_of_isSpaceOrTab (List.mem_rtakeWhile_imp hc)
  conv_rhs => rw [← List.rdropWhile_append_rtakeWhile (p := Page.isSpaceOrTab) (l := t)]
  rw [ink_append, ink_of_blank blank, List.append_nil]

theorem ink_stripRows (first : Bool) (rows : List Text) :
    ink (stripRows first rows).flatten = ink rows.flatten := by
  have one : ∀ row : Text,
      ink (if first then row else row.dropWhile Page.isSpaceOrTab) = ink row := by
    intro row
    split
    · rfl
    · exact ink_dropWhile row
  induction rows generalizing first with
  | nil => rfl
  | cons row rows ih =>
    cases rows with
    | nil => simpa [stripRows] using one row
    | cons next rows =>
      have tail := ih false fun row => by simpa using ink_dropWhile row
      rw [stripRows, List.flatten_cons, ink_append, ink_rdropWhile, one, tail, ← ink_append]
      rfl

theorem ink_joinWith (rows : List Text) : ink (joinWith [' '] rows) = ink rows.flatten := by
  have space : ink [' '] = [] := by decide
  induction rows with
  | nil => rfl
  | cons row rows ih =>
    cases rows with
    | nil => simp [joinWith]
    | cons next rows =>
      rw [joinWith, ink_append, ink_append, space, ih, List.append_nil, ← ink_append]
      rfl

theorem ink_splitOnP (t : Text) : ink (t.splitOnP endsRow).flatten = ink t := by
  induction t with
  | nil => rfl
  | cons c t ih =>
    rw [List.splitOnP_cons_eq_if_modifyHead]
    by_cases ends : endsRow c = true
    · have blank : isBlank c = true := by
        rcases (by simpa [endsRow] using ends : c = '\n' ∨ c = '\r') with rfl | rfl <;> decide
      rw [if_pos ends, List.flatten_cons, List.nil_append, ih]
      simp [ink, blank]
    · obtain ⟨row, rows, split⟩ := List.exists_cons_of_ne_nil (List.splitOnP_ne_nil endsRow t)
      rw [if_neg ends]
      rw [split] at ih ⊢
      have cons : ((row :: rows).modifyHead (c :: ·)).flatten = [c] ++ (row :: rows).flatten := rfl
      rw [cons, ink_append, ih, ← ink_append]
      rfl

theorem ink_clean (t : Text) : ink (clean t) = ink t := by
  unfold clean shownRows
  rw [ink_joinWith, flatten_filter_nonempty, ink_stripRows, ink_splitOnP]

def OneRow (t : Text) : Prop := ((splitOn '\n' t).filter (!layout ·)).length ≤ 1

def Margins (t : Text) : Prop := ∀ line ∈ splitOn '\n' t, layout (line.takeWhile isBlank) = true

def Flush (t : Text) : Prop := ∀ c ∈ t.head?, Page.isSpaceOrTab c = false

instance (t : Text) : Decidable (OneRow t) := inferInstanceAs (Decidable (_ ≤ 1))

instance (t : Text) : Decidable (Margins t) := inferInstanceAs (Decidable (∀ _ ∈ _, _))

instance (t : Text) : Decidable (Flush t) :=
  decidable_of_iff (t.head?.all (!Page.isSpaceOrTab ·) = true) (by simp [Flush, Option.all_eq_true])

theorem splitOn_free_append {sep : Char} {a : Text} (free : sep ∉ a) (b : Text) :
    ∃ p ps, splitOn sep b = p :: ps ∧ splitOn sep (a ++ b) = (a ++ p) :: ps := by
  induction a with
  | nil =>
    obtain ⟨p, ps, split⟩ := List.exists_cons_of_ne_nil (splitOn_ne_nil sep b)
    exact ⟨p, ps, split, split⟩
  | cons c a ih =>
    obtain ⟨p, ps, split, split'⟩ := ih fun h => free (by simp [h])
    have ne : c ≠ sep := fun e => free (by simp [e])
    exact ⟨p, ps, split, by rw [List.cons_append, splitOn, if_neg ne, split']; rfl⟩

theorem layout_iff_lines {t : Text} :
    layout t = true ↔ ∀ line ∈ splitOn '\n' t, layout line = true := by
  constructor
  · intro h line mem
    rw [layout_iff] at h ⊢
    exact fun c hc => h c ((infix_of_mem_splitOn mem).subset hc)
  · intro h
    induction t with
    | nil => rfl
    | cons c t ih =>
      by_cases hc : c = '\n'
      · subst hc
        rw [splitOn_cons_self] at h
        rw [layout_cons, ih fun line mem => h line (List.mem_cons_of_mem _ mem)]
        rfl
      · obtain ⟨p, ps, split, split'⟩ := splitOn_cons_ne hc t
        rw [split'] at h
        have head := h (c :: p) (by simp)
        rw [layout_cons, Bool.and_eq_true] at head
        rw [layout_cons, head.1, ih]
        · rfl
        · intro line mem
          rw [split] at mem
          rcases List.mem_cons.mp mem with rfl | mem
          · exact head.2
          · exact h line (by simp [mem])

theorem filter_layout_eq_nil {t : Text} :
    (splitOn '\n' t).filter (!layout ·) = [] ↔ layout t = true := by
  rw [layout_iff_lines, List.filter_eq_nil_iff]
  simp

section Lines

variable {a b indent Y : Text}

theorem oneRow_of_layout (lay : layout a = true) : OneRow a := by
  rw [OneRow, filter_layout_eq_nil.mpr lay]
  exact Nat.zero_le 1

theorem oneRow_break :
    OneRow (a ++ '\n' :: b) ↔ layout a = true ∧ OneRow b ∨ OneRow a ∧ layout b = true := by
  unfold OneRow
  rw [splitOn_append_cons, List.filter_append, List.length_append, ← filter_layout_eq_nil,
    ← filter_layout_eq_nil, ← List.length_eq_zero_iff, ← List.length_eq_zero_iff]
  omega

theorem margins_of_layout (lay : layout a = true) : Margins a := by
  intro line mem
  have each := layout_iff_lines.mp lay line mem
  rw [layout_iff] at each ⊢
  exact fun c hc => each c ((List.takeWhile_sublist _).subset hc)

theorem margins_break : Margins (a ++ '\n' :: b) ↔ Margins a ∧ Margins b := by
  unfold Margins
  rw [splitOn_append_cons]
  simp only [List.mem_append, or_imp, forall_and]

theorem Margins.layout_indent (margins : Margins (indent ++ Y)) (blank : allBlank indent = true)
    (free : '\n' ∉ indent) : layout indent = true := by
  obtain ⟨p, ps, -, split⟩ := splitOn_free_append free Y
  have margin := margins (indent ++ p) (by rw [split]; simp)
  rw [List.takeWhile_append_of_pos (allBlank_iff.mp blank), layout_append,
    Bool.and_eq_true] at margin
  exact margin.1

end Lines

/-- A text is cut behind the indentation of a line, with only layout on one side, or in front of its
first line break, where it starts with neither space nor tab. -/
structure CutAt (a indent Y : Text) : Prop where
  margins : Margins (a ++ indent ++ Y)
  blank : allBlank indent = true
  free : '\n' ∉ indent
  start : a = [] ∧ Flush (indent ++ Y) ∨
    ∃ b, a = b ++ ['\n'] ∧ (layout b = true ∨ layout Y = true)

/-- A text is cut and nothing is seen of it, with blanks behind the front part and a line break in
front of the rest. -/
structure Unseen (X lead gap Y : Text) : Prop where
  front : Margins (X ++ lead)
  back : Margins (gap ++ Y)
  rows : OneRow (X ++ Y) → OneRow (X ++ lead) ∧ OneRow (gap ++ Y)
  layouts : layout lead = true ∧ layout gap = true
  led : X = [] → lead = []
  starts : ∃ c w, gap = c :: w ∧ Page.isSpaceOrTab c = false
  shows : clean (X ++ lead) ++ clean (gap ++ Y) = clean (X ++ Y)

theorem eol_starts (eol : LineEnding) (t : Text) :
    ∃ c w, eol.text ++ t = c :: w ∧ Page.isSpaceOrTab c = false := by
  cases eol with
  | lf => exact ⟨'\n', t, rfl, rfl⟩
  | crlf => exact ⟨'\r', '\n' :: t, rfl, rfl⟩

theorem eol_split (eol : LineEnding) (t : Text) :
    ∃ w, layout w = true ∧ eol.text ++ t = w ++ '\n' :: t := by
  cases eol with
  | lf => exact ⟨[], rfl, rfl⟩
  | crlf => exact ⟨['\r'], rfl, rfl⟩

theorem oneRow_eol {t : Text} (eol : LineEnding) (row : OneRow t) : OneRow (eol.text ++ t) := by
  obtain ⟨w, lay, split⟩ := eol_split eol t
  rw [split, oneRow_break]
  exact .inl ⟨lay, row⟩

theorem margins_eol {t : Text} (eol : LineEnding) (margins : Margins t) :
    Margins (eol.text ++ t) := by
  obtain ⟨w, lay, split⟩ := eol_split eol t
  rw [split, margins_break]
  exact ⟨margins_of_layout lay, margins⟩

theorem breaks_eol {t : Text} (eol : LineEnding) (lay : layout t = true) : Breaks (eol.text ++ t) := by
  obtain ⟨w, lay', split⟩ := eol_split eol t
  rw [split]
  refine ⟨?_, '\n', by simp, by decide⟩
  rw [layout_append, layout_cons, lay', lay]
  rfl

namespace CutAt

variable {a indent Y : Text} (cut : CutAt a indent Y)

include cut

theorem rest : Margins (indent ++ Y) := by
  have margins := cut.margins
  rcases cut.start with ⟨rfl, -⟩ | ⟨b, rfl, -⟩
  · exact margins
  · have split : b ++ ['\n'] ++ indent ++ Y = b ++ '\n' :: (indent ++ Y) := by simp
    rw [split, margins_break] at margins
    exact margins.2

theorem layout_indent : layout indent = true := cut.rest.layout_indent cut.blank cut.free

theorem front : Margins (a ++ indent) := by
  have margins := cut.margins
  have last := margins_of_layout cut.layout_indent
  rcases cut.start with ⟨rfl, -⟩ | ⟨b, rfl, -⟩
  · exact last
  · have split : b ++ ['\n'] ++ indent ++ Y = b ++ '\n' :: (indent ++ Y) := by simp
    have split' : b ++ ['\n'] ++ indent = b ++ '\n' :: indent := by simp
    rw [split, margins_break] at margins
    rw [split', margins_break]
    exact ⟨margins.1, last⟩

theorem rows (row : OneRow (a ++ indent ++ Y)) : OneRow (a ++ indent) ∧ OneRow (indent ++ Y) := by
  have lay := cut.layout_indent
  rcases cut.start with ⟨rfl, -⟩ | ⟨b, rfl, -⟩
  · exact ⟨oneRow_of_layout lay, row⟩
  · have split : b ++ ['\n'] ++ indent ++ Y = b ++ '\n' :: (indent ++ Y) := by simp
    have split' : b ++ ['\n'] ++ indent = b ++ '\n' :: indent := by simp
    rw [split, oneRow_break] at row
    rw [split', oneRow_break]
    rcases row with ⟨above, below⟩ | ⟨above, below⟩
    · exact ⟨.inl ⟨above, oneRow_of_layout lay⟩, below⟩
    · exact ⟨.inr ⟨above, lay⟩, oneRow_of_layout below⟩

theorem clean_eq (eol : LineEnding) :
    clean (a ++ indent) ++ clean (eol.text ++ indent ++ Y) = clean (a ++ indent ++ Y) := by
  have lay := cut.layout_indent
  rw [clean_append (breaks_eol eol lay) Y]
  rcases cut.start with ⟨rfl, flush⟩ | ⟨b, rfl, sides⟩
  · rw [List.nil_append]
    cases indent with
    | nil => exact cleanBehind_eq flush
    | cons c indent =>
      have ends : endsRow c = true := by
        rw [layout_cons, Bool.and_eq_true] at lay
        simpa [isLayout, flush c rfl] using lay.1
      have breaks : Breaks (c :: indent) := ⟨lay, c, by simp, ends⟩
      rw [clean_of_breaks breaks, clean_append breaks, List.nil_append]
  · rcases sides with above | below
    · have breaks : Breaks (b ++ ['\n'] ++ indent) := by
        refine ⟨?_, '\n', by simp, by decide⟩
        rw [layout_append, layout_append, above, lay]
        decide
      rw [clean_of_breaks breaks, clean_append breaks, List.nil_append]
    · have none : cleanBehind Y = [] := by
        rw [← List.append_nil Y, cleanBehind_append below]
        rfl
      have breaks : Breaks (['\n'] ++ indent) := breaks_eol .lf lay
      rw [none, List.append_nil, List.append_assoc b, clean_behind breaks below]

theorem unseen (eol : LineEnding) : Unseen (a ++ indent) [] (eol.text ++ indent) Y where
  front := by
    rw [List.append_nil]
    exact cut.front
  back := by
    rw [List.append_assoc]
    exact margins_eol eol cut.rest
  rows := fun row => by
    rw [List.append_nil, List.append_assoc]
    exact ⟨(cut.rows row).1, oneRow_eol eol (cut.rows row).2⟩
  layouts := ⟨rfl, (breaks_eol eol cut.layout_indent).1⟩
  led := fun _ => rfl
  starts := eol_starts eol indent
  shows := by
    rw [List.append_nil]
    exact cut.clean_eq eol

end CutAt

theorem CutAt.unseen_last {b indent lead : Text} (cut : CutAt (b ++ ['\n']) indent [])
    (lay : layout lead = true) (eol : LineEnding) :
    Unseen (b ++ ['\n'] ++ indent) lead (eol.text ++ indent) [] := by
  have split : b ++ ['\n'] ++ indent = b ++ '\n' :: indent := by simp
  have split' : b ++ ['\n'] ++ indent ++ lead = b ++ '\n' :: (indent ++ lead) := by simp
  have long : layout (indent ++ lead) = true := by
    rw [layout_append, cut.layout_indent, lay]
    rfl
  have before := cut.unseen eol
  refine ⟨?_, before.back, fun row => ⟨?_, (before.rows row).2⟩, ⟨lay, before.layouts.2⟩, by simp,
    before.starts, ?_⟩
  · have front := cut.front
    rw [split, margins_break] at front
    rw [split', margins_break]
    exact ⟨front.1, margins_of_layout long⟩
  · rw [List.append_nil, split, oneRow_break] at row
    rw [split', oneRow_break]
    exact row.imp (fun h => ⟨h.1, oneRow_of_layout long⟩) fun h => ⟨h.1, long⟩
  · have breaks : Breaks (['\n'] ++ indent) := breaks_eol .lf cut.layout_indent
    rw [← cut.clean_eq eol, List.append_assoc b, clean_behind breaks lay]

theorem unseen_end {t : Text} (margins : Margins t) (eol : LineEnding) :
    Unseen t [] eol.text [] := by
  have breaks : Breaks eol.text := by cases eol <;> exact ⟨by decide, '\n', by decide, by decide⟩
  have starts := eol_starts eol []
  rw [List.append_nil] at starts
  refine ⟨by rwa [List.append_nil], ?_, fun row => ⟨row, ?_⟩, ⟨rfl, breaks.1⟩, fun _ => rfl, starts, ?_⟩
  · rw [List.append_nil]
    exact margins_of_layout breaks.1
  · rw [List.append_nil]
    exact oneRow_of_layout breaks.1
  · rw [List.append_nil eol.text, clean_of_breaks breaks, List.append_nil]

end Quell.Text
