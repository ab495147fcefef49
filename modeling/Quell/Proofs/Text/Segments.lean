import Mathlib.Data.List.Chain
import Quell.Proofs.Text.Trim
import Quell.Text.Segment

/-!
Segmentation loses nothing and is done once.

The fragments of a text join to the text, and a fragment is a line break, or a run without line
feed that is blank or trimmed. Such a fragment is not cut again.
-/
namespace Quell.Text

theorem splitOn_ne_nil (sep : Char) (t : Text) : splitOn sep t ≠ [] := by
  cases t with
  | nil => simp [splitOn]
  | cons c cs =>
    rw [splitOn]
    split
    · simp
    · split <;> simp

theorem splitOn_cons_self (sep : Char) (cs : Text) :
    splitOn sep (sep :: cs) = [] :: splitOn sep cs := by
  rw [splitOn, if_pos rfl]

theorem splitOn_cons_ne {sep c : Char} (ne : c ≠ sep) (cs : Text) :
    ∃ p ps, splitOn sep cs = p :: ps ∧ splitOn sep (c :: cs) = (c :: p) :: ps := by
  obtain ⟨p, ps, h⟩ := List.exists_cons_of_ne_nil (splitOn_ne_nil sep cs)
  exact ⟨p, ps, h, by rw [splitOn, if_neg ne, h]⟩

theorem not_mem_of_mem_splitOn {sep : Char} {t part : Text} (h : part ∈ splitOn sep t) :
    sep ∉ part := by
  induction t generalizing part with
  | nil =>
    rw [splitOn, List.mem_singleton] at h
    simp [h]
  | cons c cs ih =>
    by_cases hc : c = sep
    · subst hc
      rw [splitOn_cons_self] at h
      rcases List.mem_cons.mp h with rfl | h
      · simp
      · exact ih h
    · obtain ⟨p, ps, hcs, hsplit⟩ := splitOn_cons_ne hc cs
      rw [hsplit] at h
      rcases List.mem_cons.mp h with rfl | h
      · have : sep ∉ p := ih (by simp [hcs])
        simp [this, Ne.symm hc]
      · exact ih (by simp [hcs, h])

theorem splitOn_parts (sep : Char) (t : Text) :
    ∃ p ps, splitOn sep t = p :: ps ∧ p <+: t ∧ ∀ q ∈ ps, q <:+: t := by
  induction t with
  | nil => exact ⟨[], [], rfl, List.nil_prefix, fun q hq => nomatch hq⟩
  | cons c cs ih =>
    obtain ⟨p, ps, h, first, others⟩ := ih
    have tail : cs <:+: c :: cs := (List.suffix_cons c cs).isInfix
    by_cases hc : c = sep
    · refine ⟨[], p :: ps, by rw [hc, splitOn_cons_self, h], List.nil_prefix, ?_⟩
      intro q hq
      rcases List.mem_cons.mp hq with rfl | hq
      · exact first.isInfix.trans tail
      · exact (others q hq).trans tail
    · refine ⟨c :: p, ps, by rw [splitOn, if_neg hc, h], ?_, fun q hq => (others q hq).trans tail⟩
      exact List.cons_prefix_cons.mpr ⟨rfl, first⟩

theorem infix_of_mem_splitOn {sep : Char} {t part : Text} (h : part ∈ splitOn sep t) :
    part <:+: t := by
  obtain ⟨p, ps, split, first, others⟩ := splitOn_parts sep t
  rw [split] at h
  rcases List.mem_cons.mp h with rfl | h
  · exact first.isInfix
  · exact others part h

theorem splitOn_of_not_mem {sep : Char} {t : Text} (free : sep ∉ t) : splitOn sep t = [t] := by
  induction t with
  | nil => rfl
  | cons c cs ih =>
    have ne : c ≠ sep := fun e => free (by simp [e])
    rw [splitOn, if_neg ne, ih fun h => free (by simp [h])]

theorem splitOn_append_cons (sep : Char) (a b : Text) :
    splitOn sep (a ++ sep :: b) = splitOn sep a ++ splitOn sep b := by
  induction a with
  | nil => exact splitOn_cons_self sep b
  | cons c a ih =>
    by_cases hc : c = sep
    · rw [hc, List.cons_append, splitOn_cons_self, splitOn_cons_self, ih, List.cons_append]
    · obtain ⟨p, ps, split, split'⟩ := splitOn_cons_ne hc a
      rw [split', List.cons_append, splitOn, if_neg hc, ih, split]
      rfl

theorem splitOn_append {sep : Char} {a : Text} (free : sep ∉ a) (b : Text) :
    splitOn sep (a ++ sep :: b) = a :: splitOn sep b := by
  rw [splitOn_append_cons, splitOn_of_not_mem free, List.singleton_append]

theorem infix_append_cons_iff {α : Type} {s a b : List α} {c : α} (lacks : c ∉ s) :
    s <:+: a ++ c :: b ↔ s <:+: a ∨ s <:+: b := by
  constructor
  · rw [List.infix_append_iff]
    rintro (inside | inside | ⟨x, y, rfl, back, front⟩)
    · exact .inl inside
    · rcases List.infix_cons_iff.mp inside with front | inside
      · cases s with
        | nil => exact .inl List.nil_infix
        | cons d ds => exact absurd (List.cons_prefix_cons.mp front).1 (by simp_all)
      · exact .inr inside
    · cases y with
      | nil => exact .inl (by simpa using back.isInfix)
      | cons d ds => exact absurd (List.cons_prefix_cons.mp front).1 (by simp_all)
  · rintro (inside | inside)
    · exact inside.trans (List.prefix_append a _).isInfix
    · exact inside.trans ((List.suffix_cons c b).isInfix.trans (List.suffix_append a _).isInfix)

theorem segmentLine_cases (line : Text) :
    allBlank line = true ∧ segmentLine line = [line].filter (!·.isEmpty) ∨
    ∃ v c w, line = v ++ c ++ w ∧ allBlank v = true ∧ allBlank w = true ∧ c ≠ [] ∧ trim c = c ∧
      segmentLine line = [v, c, w].filter (!·.isEmpty) := by
  unfold segmentLine
  dsimp only
  obtain ⟨w, split, blankw, last⟩ := trimEnd_spec line
  obtain ⟨v, split', blankv, -⟩ := trimStart_spec (trimEnd line)
  split
  · rename_i empty
    rw [List.isEmpty_iff, trimStart_eq_nil] at empty
    refine .inl ⟨?_, rfl⟩
    rw [split, allBlank_append, empty, blankw]
    rfl
  · rename_i solid
    refine .inr ⟨v, trimStart (trimEnd line), w, ?_, blankv, blankw, by simpa using solid, ?_, ?_⟩
    · rw [← split', ← split]
    · have back : trimEnd (trimStart (trimEnd line)) = trimStart (trimEnd line) := by
        rw [trimEnd_eq_self]
        intro c hc
        apply last
        rw [split', List.getLast?_append, Option.mem_def.mp hc]
        rfl
      rw [trim, trimStart_idem, back]
    · have front : (trimEnd line).take
          ((trimEnd line).length - (trimStart (trimEnd line)).length) = v := by
        have length := congrArg List.length split'
        rw [List.length_append] at length
        rw [show (trimEnd line).length - (trimStart (trimEnd line)).length = v.length by omega]
        conv_lhs => rw [split']
        exact List.take_left
      have back : line.drop (trimEnd line).length = w := by
        have : (trimEnd line ++ w).drop (trimEnd line).length = w := List.drop_left
        rwa [← split] at this
      rw [front, back]

theorem flatten_filter_nonempty (ts : List Text) :
    (ts.filter (!·.isEmpty)).flatten = ts.flatten := by
  induction ts with
  | nil => rfl
  | cons t ts ih =>
    cases t with
    | nil => simpa using ih
    | cons c cs => simp [ih]

theorem segmentLine_flatten (line : Text) : (segmentLine line).flatten = line := by
  rcases segmentLine_cases line with ⟨-, h⟩ | ⟨v, c, w, split, -, -, -, -, h⟩
  · rw [h, flatten_filter_nonempty]
    simp
  · rw [h, flatten_filter_nonempty, split]
    simp

theorem segmentEnded_cases (raw : Text) :
    (∃ line, raw = line ++ ['\r'] ∧ segmentEnded raw = segmentLine line ++ [['\r', '\n']]) ∨
    raw.getLast? ≠ some '\r' ∧ segmentEnded raw = segmentLine raw ++ [['\n']] := by
  unfold segmentEnded dropLast?
  by_cases last : raw.getLast? = some '\r'
  · obtain ⟨line, rfl⟩ := List.getLast?_eq_some_iff.mp last
    refine .inl ⟨line, rfl, ?_⟩
    rw [if_pos last, List.dropLast_concat]
  · refine .inr ⟨last, ?_⟩
    rw [if_neg last]

theorem segmentEnded_flatten (raw : Text) : (segmentEnded raw).flatten = raw ++ ['\n'] := by
  rcases segmentEnded_cases raw with ⟨line, rfl, e⟩ | ⟨-, e⟩
  · rw [e, List.flatten_append, segmentLine_flatten]
    simp
  · rw [e, List.flatten_append, segmentLine_flatten]
    simp

theorem segmentLines_flatten (raw : Text) (raws : List Text) :
    (segmentLines (raw :: raws)).flatten = joinWith ['\n'] (raw :: raws) := by
  induction raws generalizing raw with
  | nil => exact segmentLine_flatten raw
  | cons next rest ih =>
    rw [segmentLines, List.flatten_append, segmentEnded_flatten, ih, joinWith]

theorem joinWith_concat (sep last : Text) {parts : List Text} (some : parts ≠ []) :
    joinWith sep (parts ++ [last]) = joinWith sep parts ++ sep ++ last := by
  induction parts with
  | nil => exact absurd rfl some
  | cons part parts ih =>
    cases parts with
    | nil => rfl
    | cons next parts =>
      have later := ih nofun
      rw [List.cons_append] at later
      rw [List.cons_append, List.cons_append, joinWith, later, joinWith]
      simp only [List.append_assoc]

theorem joinWith_splitOn (sep : Char) (t : Text) : joinWith [sep] (splitOn sep t) = t := by
  induction t with
  | nil => rfl
  | cons c cs ih =>
    obtain ⟨p, ps, h⟩ := List.exists_cons_of_ne_nil (splitOn_ne_nil sep cs)
    by_cases hc : c = sep
    · rw [hc, splitOn_cons_self, h, joinWith, ← h, ih]
      rfl
    · rw [splitOn, if_neg hc, h]
      rw [h] at ih
      cases ps with
      | nil =>
        simp only [joinWith] at ih ⊢
        rw [ih]
      | cons q qs =>
        simp only [joinWith, List.cons_append] at ih ⊢
        rw [ih]

theorem segments_flatten (t : Text) : (segments t).flatten = t := by
  obtain ⟨p, ps, h⟩ := List.exists_cons_of_ne_nil (splitOn_ne_nil '\n' t)
  rw [segments, h, segmentLines_flatten, ← h, joinWith_splitOn]

def Fragment (t : Text) : Prop :=
  t = ['\n'] ∨ t = ['\r', '\n'] ∨ t ≠ [] ∧ '\n' ∉ t ∧ (allBlank t = true ∨ trim t = t)

theorem fragment_of_mem_segmentLine {line t : Text} (free : '\n' ∉ line)
    (h : t ∈ segmentLine line) : Fragment t := by
  rcases segmentLine_cases line with ⟨blank, e⟩ | ⟨v, c, w, split, blankv, blankw, -, trimmed, e⟩
  · rw [e, List.mem_filter, List.mem_singleton] at h
    obtain ⟨rfl, ne⟩ := h
    exact .inr (.inr ⟨by simpa using ne, free, .inl blank⟩)
  · rw [e, List.mem_filter] at h
    obtain ⟨mem, ne⟩ := h
    rw [split] at free
    simp only [List.mem_append, not_or] at free
    simp only [List.mem_cons, List.not_mem_nil, or_false] at mem
    rcases mem with rfl | rfl | rfl
    · exact .inr (.inr ⟨by simpa using ne, free.1.1, .inl blankv⟩)
    · exact .inr (.inr ⟨by simpa using ne, free.1.2, .inr trimmed⟩)
    · exact .inr (.inr ⟨by simpa using ne, free.2, .inl blankw⟩)

theorem fragment_of_mem_segmentEnded {raw t : Text} (free : '\n' ∉ raw)
    (h : t ∈ segmentEnded raw) : Fragment t := by
  rcases segmentEnded_cases raw with ⟨line, rfl, e⟩ | ⟨-, e⟩
  · rw [e] at h
    rcases List.mem_append.mp h with h | h
    · exact fragment_of_mem_segmentLine (fun hn => free (List.mem_append_left _ hn)) h
    · exact .inr (.inl (List.mem_singleton.mp h))
  · rw [e] at h
    rcases List.mem_append.mp h with h | h
    · exact fragment_of_mem_segmentLine free h
    · exact .inl (List.mem_singleton.mp h)

theorem fragment_of_mem_segmentLines {raws : List Text} (free : ∀ raw ∈ raws, '\n' ∉ raw) {t : Text}
    (h : t ∈ segmentLines raws) : Fragment t := by
  induction raws with
  | nil => cases h
  | cons raw rest ih =>
    cases rest with
    | nil => exact fragment_of_mem_segmentLine (free raw (by simp)) h
    | cons next rest =>
      rw [segmentLines] at h
      rcases List.mem_append.mp h with h | h
      · exact fragment_of_mem_segmentEnded (free raw (by simp)) h
      · exact ih (fun r hr => free r (by simp [hr])) h

theorem fragment_of_mem_segments {t s : Text} (h : s ∈ segments t) : Fragment s :=
  fragment_of_mem_segmentLines (fun _ hr => not_mem_of_mem_splitOn hr) h

/-- No line break is cut in two between the texts. -/
def Meets (a b : Text) : Prop := a.getLast? = some '\r' → b.head? ≠ some '\n'

theorem isChain_meets_of_free {parts : List Text} (free : ∀ t ∈ parts, '\n' ∉ t) :
    parts.IsChain Meets := by
  induction parts with
  | nil => exact .nil
  | cons t parts ih =>
    refine List.isChain_cons.mpr ⟨fun u first _ starts => ?_, ih fun u hu => free u (by simp [hu])⟩
    exact free u (by simp [List.mem_of_mem_head? first]) (List.mem_of_head? starts)

theorem not_mem_of_mem_segmentLine {line t : Text} (free : '\n' ∉ line)
    (h : t ∈ segmentLine line) : t ≠ [] ∧ '\n' ∉ t := by
  constructor
  · rcases segmentLine_cases line with ⟨-, e⟩ | ⟨v, c, w, -, -, -, -, -, e⟩
    · rw [e, List.mem_filter] at h
      simpa using h.2
    · rw [e, List.mem_filter] at h
      simpa using h.2
  · intro mem
    apply free
    rw [← segmentLine_flatten line]
    exact List.mem_flatten.mpr ⟨t, h, mem⟩

theorem isChain_segmentEnded {raw : Text} (free : '\n' ∉ raw) : (segmentEnded raw).IsChain Meets := by
  rcases segmentEnded_cases raw with ⟨line, rfl, e⟩ | ⟨open_, e⟩
  · rw [e]
    have short : '\n' ∉ line := fun mem => free (List.mem_append_left _ mem)
    refine List.isChain_append.mpr ⟨?_, .singleton _, fun t _ u hu _ => ?_⟩
    · exact isChain_meets_of_free fun t ht => (not_mem_of_mem_segmentLine short ht).2
    · cases hu
      exact nofun
  · rw [e]
    refine List.isChain_append.mpr ⟨?_, .singleton _, fun t last _ _ ends => ?_⟩
    · exact isChain_meets_of_free fun t ht => (not_mem_of_mem_segmentLine free ht).2
    · -- The last piece ends as the line does.
      obtain ⟨front, split⟩ := List.getLast?_eq_some_iff.mp last
      have whole := segmentLine_flatten raw
      rw [split, List.flatten_append, List.flatten_singleton] at whole
      have : raw.getLast? = some '\r' := by
        rw [← whole, List.getLast?_append, ends]
        rfl
      exact absurd this open_

theorem isChain_segments (t : Text) : (segments t).IsChain Meets := by
  have ended : ∀ raw, ∀ u ∈ (segmentEnded raw).getLast?, u.getLast? = some '\n' := by
    intro raw u last
    rcases segmentEnded_cases raw with ⟨_, -, e⟩ | ⟨-, e⟩
    · rw [e, List.getLast?_concat] at last
      cases last
      rfl
    · rw [e, List.getLast?_concat] at last
      cases last
      rfl
  have lines : ∀ raws : List Text, (∀ raw ∈ raws, '\n' ∉ raw) →
      (segmentLines raws).IsChain Meets := by
    intro raws
    induction raws with
    | nil => exact fun _ => .nil
    | cons raw rest ih =>
      intro free
      have here := free raw (by simp)
      cases rest with
      | nil => exact isChain_meets_of_free fun t ht => (not_mem_of_mem_segmentLine here ht).2
      | cons next rest =>
        rw [segmentLines]
        refine List.isChain_append.mpr ⟨isChain_segmentEnded here, ih fun r hr => free r (by simp [hr]),
          fun u last v _ ends => ?_⟩
        cases (ended raw u last).symm.trans ends
  exact lines _ fun _ hr => not_mem_of_mem_splitOn hr

def Settled (t : Text) : Prop :=
  (startsWithBreak t && allBlank t) = true ∨ segments t = [t]

theorem Fragment.segments_eq {t : Text} (h : Fragment t) : segments t = [t] := by
  rcases h with rfl | rfl | ⟨ne, free, kind⟩
  · decide
  · decide
  · rw [segments, splitOn_of_not_mem free, segmentLines]
    unfold segmentLine
    dsimp only
    rcases kind with blank | trimmed
    · have none : trimStart (trimEnd t) = [] := by
        rw [trimEnd_eq_nil.mpr blank]
        rfl
      rw [none]
      simp [ne]
    · have back := trimEnd_of_trim trimmed
      have front := trimStart_of_trim trimmed
      rw [back, front]
      simp [ne]

theorem Fragment.settled {t : Text} (h : Fragment t) : Settled t := .inr h.segments_eq

theorem settled_of_mem_segments {t s : Text} (h : s ∈ segments t) : Settled s :=
  (fragment_of_mem_segments h).settled

theorem Fragment.free_of_not_blank {t : Text} (h : Fragment t) (solid : allBlank t = false) :
    '\n' ∉ t := by
  rcases h with rfl | rfl | ⟨-, free, -⟩
  · exact absurd solid (by decide)
  · exact absurd solid (by decide)
  · exact free

theorem Settled.blank_of_break {t : Text} (settled : Settled t) (breaks : '\n' ∈ t) :
    allBlank t = true := by
  rcases settled with layout | single
  · exact (Bool.and_eq_true _ _ ▸ layout).2
  · have fragment : Fragment t :=
      fragment_of_mem_segments (t := t) (by rw [single]; exact List.mem_singleton_self t)
    cases blank : allBlank t with
    | true => rfl
    | false => exact absurd breaks (fragment.free_of_not_blank blank)

theorem settled_line {a run : Text} (settled : Settled (a ++ ['\n'] ++ run)) (ne : run ≠ []) :
    Settled (a ++ ['\n']) := by
  rcases settled with layout | single
  · rw [Bool.and_eq_true, allBlank_append, Bool.and_eq_true] at layout
    refine .inl ?_
    rw [Bool.and_eq_true]
    refine ⟨?_, layout.2.1⟩
    match a, layout.1 with
    | [], _ => decide
    | [c], h => simpa [startsWithBreak, startsWith, after?, apply_ite Option.isSome] using h
    | c :: d :: a, h => simpa [startsWithBreak, startsWith, after?, apply_ite Option.isSome] using h
  · have fragment : Fragment (a ++ ['\n'] ++ run) :=
      fragment_of_mem_segments (t := a ++ ['\n'] ++ run) (by rw [single]; simp)
    rcases fragment with h | h | ⟨-, free, -⟩
    · have := congrArg List.length h
      have := List.length_pos_of_ne_nil ne
      simp only [List.length_append, List.length_cons, List.length_nil] at *
      omega
    · cases a with
      | nil => cases h
      | cons c a =>
        have := congrArg List.length h
        have := List.length_pos_of_ne_nil ne
        simp only [List.length_append, List.length_cons, List.length_nil] at *
        omega
    · exact absurd (by simp) free

end Quell.Text
