import Quell.Proofs.Text.Offsets
import Quell.Proofs.Text.Segments

/-!
The table of fragments of a text.

`Segmented` says what a list of byte ranges has to be to be the segmentation of a text: it tiles
the text, each piece is a line break, a blank run or a content run, and the pieces of one line come
in one order. `segmentRanges_segmented` says that the segmentation of every text is such a list.
-/
namespace Quell.Text

def IsBreak (p : Text) : Prop := p = ['\n'] ∨ p = ['\r', '\n']

structure IsBlankRun (p : Text) : Prop where
  ne : p ≠ []
  free : '\n' ∉ p
  blank : ∀ c ∈ p, isBlank c = true

structure IsContent (p : Text) : Prop where
  ne : p ≠ []
  free : '\n' ∉ p
  first : ∀ c ∈ p.head?, isBlank c = false
  last : ∀ c ∈ p.getLast?, isBlank c = false

def Row (ps : List Text) : Prop :=
  ∃ lead content trail : Option Text,
    ps = lead.toList ++ content.toList ++ trail.toList ∧
    (∀ p ∈ lead, IsBlankRun p) ∧ (∀ p ∈ content, IsContent p) ∧ (∀ p ∈ trail, IsBlankRun p) ∧
    (content = none → trail = none)

/-- The ranges follow one another from `lo` to `hi`, none of them empty. A slice ends only between
two characters, so the ends of the ranges are cuts of the text. -/
def Tiles (t : Text) (lo hi : Nat) : List (Nat × Nat × Text) → Prop
  | [] => lo = hi
  | (start, stop, p) :: rest =>
    start = lo ∧ lo < stop ∧ slice? lo stop t = some p ∧ Tiles t stop hi rest

/-- What a segmentation of the text is. -/
structure Segmented (t : Text) (ranges : List (Nat × Nat × Text)) : Prop where
  tiles : Tiles t 0 (bytes t) ranges
  empty : ranges = [] ↔ t = []
  kinds : ∀ r ∈ ranges, IsBreak r.2.2 ∨ IsBlankRun r.2.2 ∨ IsContent r.2.2
  /-- A carriage return directly in front of a line feed belongs to the break. -/
  taken : ∀ a b, t = a ++ b → (bytes a, bytes a + 1, ['\n']) ∈ ranges → a.getLast? ≠ some '\r'
  /-- Pieces without a break between them are pieces of one line. -/
  rows : ∀ ps, ps <:+: ranges.map (·.2.2) → (∀ p ∈ ps, ¬ IsBreak p) → Row ps
  /-- Every line feed ends a break. -/
  ends : ∀ a b, t = a ++ '\n' :: b → ∃ lo p, (lo, bytes a + 1, p) ∈ ranges ∧ IsBreak p
  /-- A piece is its own only fragment. -/
  whole : ∀ r ∈ ranges, segmentRanges r.2.2 = [(0, bytes r.2.2, r.2.2)]

theorem ranged_pieces (start : Nat) (ps : List Text) : (ranged start ps).map (·.2.2) = ps := by
  induction ps generalizing start with
  | nil => rfl
  | cons p ps ih => rw [ranged, List.map_cons, ih]

theorem mem_ranged {start : Nat} {ps : List Text} {r : Nat × Nat × Text} :
    r ∈ ranged start ps ↔ ∃ before p behind, ps = before ++ p :: behind ∧
      r = (start + bytes before.flatten, start + bytes before.flatten + bytes p, p) := by
  induction ps generalizing start with
  | nil => simp [ranged]
  | cons q ps ih =>
    rw [ranged, List.mem_cons, ih]
    constructor
    · rintro (rfl | ⟨before, p, behind, rfl, rfl⟩)
      · exact ⟨[], q, ps, rfl, rfl⟩
      · refine ⟨q :: before, p, behind, rfl, ?_⟩
        simp only [List.flatten_cons, bytes_append, Nat.add_assoc]
    · rintro ⟨before, p, behind, split, rfl⟩
      cases before with
      | nil =>
        cases split
        exact .inl rfl
      | cons q' before =>
        cases split
        refine .inr ⟨before, p, behind, rfl, ?_⟩
        simp only [List.flatten_cons, bytes_append, Nat.add_assoc]

theorem tiles_ranged {t a : Text} {ps : List Text} (split : t = a ++ ps.flatten)
    (solid : ∀ p ∈ ps, p ≠ []) : Tiles t (bytes a) (bytes t) (ranged (bytes a) ps) := by
  induction ps generalizing a with
  | nil =>
    rw [List.flatten_nil, List.append_nil] at split
    rw [split]
    rfl
  | cons p ps ih =>
    rw [List.flatten_cons] at split
    have pos := bytes_pos (solid p (by simp))
    have later := ih (a := a ++ p) (by rw [split, List.append_assoc]) fun q hq => solid q (by simp [hq])
    rw [bytes_append] at later
    refine ⟨rfl, Nat.lt_add_of_pos_right pos, ?_, later⟩
    rw [split, ← List.append_assoc]
    exact slice?_append a p ps.flatten

theorem Row.nil : Row [] :=
  ⟨none, none, none, rfl, by simp, by simp, by simp, fun _ => rfl⟩

theorem Row.tail {p : Text} {ps : List Text} (h : Row (p :: ps)) : Row ps := by
  obtain ⟨lead, content, trail, split, blanks, solid, blanks', none⟩ := h
  cases lead with
  | some v =>
    cases split
    exact ⟨.none, content, trail, rfl, nofun, solid, blanks', none⟩
  | none =>
    cases content with
    | some c =>
      cases split
      exact ⟨trail, .none, .none, by simp, blanks', nofun, nofun, fun _ => rfl⟩
    | none =>
      rw [none rfl] at split
      cases split

theorem Row.dropLast {p : Text} {ps : List Text} (h : Row (ps ++ [p])) : Row ps := by
  obtain ⟨lead, content, trail, split, blanks, solid, blanks', none⟩ := h
  cases trail with
  | some w =>
    obtain ⟨rfl, -⟩ := List.append_inj' split rfl
    exact ⟨lead, content, .none, by simp, blanks, solid, nofun, fun _ => rfl⟩
  | none =>
    rw [Option.toList_none, List.append_nil] at split
    cases content with
    | some c =>
      obtain ⟨rfl, -⟩ := List.append_inj' split rfl
      exact ⟨lead, .none, .none, by simp, blanks, nofun, nofun, fun _ => rfl⟩
    | none =>
      cases lead with
      | some v =>
        obtain ⟨rfl, -⟩ := List.append_inj' (show ps ++ [p] = [] ++ [v] from split) rfl
        exact ⟨.none, .none, .none, rfl, nofun, nofun, nofun, fun _ => rfl⟩
      | none => simp at split

theorem Row.part {ps qs : List Text} (h : Row ps) (part : qs <:+: ps) : Row qs := by
  obtain ⟨before, behind, rfl⟩ := part
  have front : Row (before ++ qs) := by
    induction behind using List.reverseRecOn with
    | nil => simpa using h
    | append_singleton behind p ih =>
      apply ih
      rw [← List.append_assoc] at h
      exact h.dropLast
  clear h
  induction before with
  | nil => exact front
  | cons p before ih => exact ih front.tail

theorem isContent_of_trim {t : Text} (ne : t ≠ []) (free : '\n' ∉ t) (trimmed : trim t = t) :
    IsContent t :=
  ⟨ne, free, trimStart_eq_self.mp (trimStart_of_trim trimmed),
    trimEnd_eq_self.mp (trimEnd_of_trim trimmed)⟩

theorem exists_toList_of_filter (p : Text) :
    ∃ o : Option Text, [p].filter (!·.isEmpty) = o.toList ∧ ∀ q ∈ o, q = p ∧ q ≠ [] := by
  cases p with
  | nil => exact ⟨none, rfl, nofun⟩
  | cons c p =>
    refine ⟨some (c :: p), rfl, fun q hq => ?_⟩
    cases hq
    exact ⟨rfl, nofun⟩

theorem row_segmentLine {line : Text} (free : '\n' ∉ line) : Row (segmentLine line) := by
  have run : ∀ {p o}, (∀ q ∈ o, q = p ∧ q ≠ []) → '\n' ∉ p → allBlank p = true →
      ∀ q ∈ (o : Option Text), IsBlankRun q := by
    intro p o here free blank q hq
    obtain ⟨rfl, ne⟩ := here q hq
    exact ⟨ne, free, allBlank_iff.mp blank⟩
  rcases segmentLine_cases line with
    ⟨blank, e⟩ | ⟨v, c, w, split, blankv, blankw, ne, trimmed, e⟩
  · obtain ⟨lead, keep, here⟩ := exists_toList_of_filter line
    exact ⟨lead, none, none, by rw [e, keep]; simp, run here free blank, nofun, nofun, fun _ => rfl⟩
  · rw [split, List.mem_append, List.mem_append, not_or, not_or] at free
    obtain ⟨lead, keep, here⟩ := exists_toList_of_filter v
    obtain ⟨trail, keep', here'⟩ := exists_toList_of_filter w
    refine ⟨lead, some c, trail, ?_, run here free.1.1 blankv, ?_, run here' free.2 blankw, nofun⟩
    · have middle : [c].filter (!·.isEmpty) = [c] := by simp [ne]
      rw [e, ← keep, ← keep', Option.toList_some, ← middle, ← List.filter_append, ← List.filter_append]
      rfl
    · intro q hq
      cases hq
      exact isContent_of_trim ne free.1.2 trimmed

theorem segmentEnded_row {raw : Text} (free : '\n' ∉ raw) :
    ∃ row b, segmentEnded raw = row ++ [b] ∧ Row row ∧ IsBreak b := by
  rcases segmentEnded_cases raw with ⟨line, rfl, e⟩ | ⟨-, e⟩
  · exact ⟨_, _, e, row_segmentLine fun mem => free (List.mem_append_left _ mem), .inr rfl⟩
  · exact ⟨_, _, e, row_segmentLine free, .inl rfl⟩

theorem row_of_infix_segmentLines {raws ps : List Text} (free : ∀ raw ∈ raws, '\n' ∉ raw)
    (part : ps <:+: segmentLines raws) (unbroken : ∀ p ∈ ps, ¬ IsBreak p) : Row ps := by
  induction raws with
  | nil =>
    rw [segmentLines, List.infix_nil] at part
    rw [part]
    exact Row.nil
  | cons raw rest ih =>
    have here := free raw (by simp)
    cases rest with
    | nil => exact (row_segmentLine here).part part
    | cons next rest =>
      obtain ⟨row, b, split, arranged, breaks⟩ := segmentEnded_row here
      rw [segmentLines, split, List.append_assoc, List.singleton_append,
        infix_append_cons_iff fun mem => unbroken b mem breaks] at part
      -- a stretch without a break lies in front of the first break or behind it
      rcases part with front | behind
      · exact arranged.part front
      · exact ih (fun r hr => free r (by simp [hr])) behind

theorem Fragment.ne_nil {t : Text} (h : Fragment t) : t ≠ [] := by
  rcases h with rfl | rfl | ⟨ne, -⟩
  · exact nofun
  · exact nofun
  · exact ne

theorem Fragment.kinds {t : Text} (h : Fragment t) : IsBreak t ∨ IsBlankRun t ∨ IsContent t := by
  rcases h with rfl | rfl | ⟨ne, free, blank | trimmed⟩
  · exact .inl (.inl rfl)
  · exact .inl (.inr rfl)
  · exact .inr (.inl ⟨ne, free, allBlank_iff.mp blank⟩)
  · exact .inr (.inr (isContent_of_trim ne free trimmed))

theorem Fragment.of_break {a b : Text} (h : Fragment (a ++ '\n' :: b)) :
    IsBreak (a ++ '\n' :: b) ∧ b = [] := by
  rcases h with e | e | ⟨-, free, -⟩
  · refine ⟨.inl e, ?_⟩
    cases a with
    | nil => simpa using e
    | cons c a => simp at e
  · refine ⟨.inr e, ?_⟩
    match a, e with
    | [c], e => exact (List.cons.inj (List.cons.inj e).2).2
    | c :: d :: a, e => simp at e
  · exact absurd (by simp) free

theorem flatten_eq_append_cons {ps : List Text} {a b : Text} {c : Char}
    (h : ps.flatten = a ++ c :: b) :
    ∃ before u v behind, ps = before ++ (u ++ c :: v) :: behind ∧ a = before.flatten ++ u := by
  induction ps generalizing a with
  | nil => cases a <;> cases h
  | cons p ps ih =>
    rw [List.flatten_cons, List.append_eq_append_iff] at h
    rcases h with ⟨m, rfl, later⟩ | ⟨m, rfl, here⟩
    · obtain ⟨before, u, v, behind, rfl, rfl⟩ := ih later
      exact ⟨p :: before, u, v, behind, rfl, by simp⟩
    · cases m with
      | nil =>
        obtain ⟨before, u, v, behind, rfl, none⟩ := ih (a := []) here.symm
        exact ⟨a :: before, u, v, behind, by simp, by simpa using none⟩
      | cons d m =>
        cases here
        exact ⟨[], a, m, ps, rfl, by simp⟩

theorem segmentRanges_eq_nil {t : Text} : segmentRanges t = [] ↔ t = [] := by
  constructor
  · intro none
    have pieces := ranged_pieces 0 (segments t)
    rw [← segmentRanges, none] at pieces
    rw [← segments_flatten t, ← pieces]
    rfl
  · rintro rfl
    rfl

theorem getLast?_ne_of_lone {t : Text} {before behind : List Text}
    (split : segments t = before ++ ['\n'] :: behind) : before.flatten.getLast? ≠ some '\r' := by
  intro ends
  cases before using List.reverseRecOn with
  | nil => cases ends
  | append_singleton before q =>
    have solid : q ≠ [] := (fragment_of_mem_segments (t := t) (by simp [split])).ne_nil
    have chain := isChain_segments t
    rw [split] at chain
    -- the fragment in front would meet the line feed in the middle of a break
    have meets : Meets q ['\n'] :=
      (List.isChain_append.mp chain).2.2 q (by simp) ['\n'] rfl
    rw [List.flatten_append, List.flatten_singleton, List.getLast?_append_of_ne_nil _ solid] at ends
    exact meets ends rfl

theorem segmentRanges_segmented (t : Text) : Segmented t (segmentRanges t) where
  tiles := tiles_ranged (a := []) (segments_flatten t).symm fun _ hp =>
    (fragment_of_mem_segments hp).ne_nil
  empty := segmentRanges_eq_nil
  kinds := by
    intro r hr
    obtain ⟨before, p, behind, split, rfl⟩ := mem_ranged.mp hr
    exact (fragment_of_mem_segments (t := t) (by simp [split])).kinds
  taken := by
    intro a b cut lone
    have join := segments_flatten t
    obtain ⟨before, p, behind, split, here⟩ := mem_ranged.mp lone
    obtain ⟨start, -, rfl⟩ := Prod.mk.inj here |>.imp_right Prod.mk.inj
    rw [split, List.flatten_append] at join
    rw [Nat.zero_add] at start
    rw [(append_inj_bytes (cut.symm.trans join.symm) start).1]
    exact getLast?_ne_of_lone split
  rows := by
    intro ps part unbroken
    rw [segmentRanges, ranged_pieces] at part
    exact row_of_infix_segmentLines (fun _ hr => not_mem_of_mem_splitOn hr) part unbroken
  ends := by
    intro a b cut
    obtain ⟨before, u, v, behind, split, rfl⟩ :=
      flatten_eq_append_cons ((segments_flatten t).trans cut)
    have piece : Fragment (u ++ '\n' :: v) := fragment_of_mem_segments (t := t) (by simp [split])
    obtain ⟨breaks, rfl⟩ := piece.of_break
    refine ⟨bytes before.flatten, _, mem_ranged.mpr ⟨before, _, behind, split, ?_⟩, breaks⟩
    simp only [bytes_append, Nat.zero_add, Nat.add_assoc]
    rfl
  whole := by
    intro r hr
    obtain ⟨before, p, behind, split, rfl⟩ := mem_ranged.mp hr
    have piece : Fragment p := fragment_of_mem_segments (t := t) (by simp [split])
    rw [segmentRanges, piece.segments_eq, ranged, ranged, Nat.zero_add]

/-- Of two carriage returns in front of a line feed the first is a blank of the line. -/
example : segmentRanges ['\u3000', 'a', ' ', '\r', '\r', '\n', '\t'] =
    [(0, 3, ['\u3000']), (3, 4, ['a']), (4, 6, [' ', '\r']), (6, 8, ['\r', '\n']), (8, 9, ['\t'])] := by
  decide

end Quell.Text
