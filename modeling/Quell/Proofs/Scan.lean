import Quell.Proofs.Path
import Quell.Scan

/-!
What a scan finds from where it starts.

A walk enters each folder that is not excluded, but the entry where it starts it always enters. The
files that it meets are looked at once more, as files: by then the ignore file sees the folders above
them, while the patterns of the configuration and the folders that are always skipped are seen only
where the walk passes (`run_from_paths`). So a path may lead behind a folder that would not have been
entered (`run_brings_back`).
-/
namespace Quell

open Text Quell.Path

/-- Entries of a folder have names of their own, and there are no links. -/
inductive Entry.Sound : Entry → Prop
  | file (c : Content) : Sound (.file c)
  | folder {entries : List (Text × Entry)} : (entries.map (·.1)).Nodup →
      (∀ z ∈ entries, IsName z.1) → (∀ z ∈ entries, Sound z.2) → Sound (.folder entries)

namespace Entry

theorem mem_of_lookup {entries : List (Text × Entry)} {name : Text} {e : Entry}
    (h : entries.lookup name = some e) : (name, e) ∈ entries := by
  obtain ⟨front, back, rfl, -⟩ := List.lookup_eq_some_iff.mp h
  simp

theorem lookup_of_mem {entries : List (Text × Entry)} (distinct : (entries.map (·.1)).Nodup)
    {z : Text × Entry} (h : z ∈ entries) : entries.lookup z.1 = some z.2 := by
  obtain ⟨front, back, rfl⟩ := List.append_of_mem h
  refine List.lookup_eq_some_iff.mpr ⟨front, back, rfl, fun y hy => bne_iff_ne.mpr fun e => ?_⟩
  rw [List.map_append, List.map_cons] at distinct
  exact (List.nodup_append.mp distinct).2.2 y.1 (List.mem_map_of_mem hy) z.1 (by simp) e.symm

theorem Sound.at? {e inner : Entry} (sound : e.Sound) {names : List Text}
    (h : e.at? names = some inner) : inner.Sound ∧ ∀ n ∈ names, IsName n := by
  induction names generalizing e with
  | nil =>
    cases h
    exact ⟨sound, nofun⟩
  | cons name names ih =>
    cases sound with
    | file c => cases h
    | folder _ proper inside =>
      obtain ⟨next, found, below⟩ := Option.bind_eq_some_iff.mp h
      have mem := mem_of_lookup found
      obtain ⟨sound, rest⟩ := ih (inside _ mem) below
      exact ⟨sound, List.forall_mem_cons.mpr ⟨proper _ mem, rest⟩⟩

end Entry

theorem Disk.unlinked {disk : Disk} (sound : disk.root.Sound) : disk.Unlinked := by
  intro names target linked
  obtain ⟨e, here, kind⟩ := Option.map_eq_some_iff.mp linked
  have solid := (sound.at? here).1
  cases solid with
  | file c => cases kind
  | folder _ _ _ => cases kind

theorem Disk.sound_entry? {disk : Disk} (sound : disk.root.Sound) {path : Text} {e : Entry}
    (h : disk.entry? path = some e) : e.Sound := by
  unfold entry? at h
  cases found : disk.find path with
  | error flaw =>
    rw [found] at h
    cases h
  | ok t =>
    rw [found] at h
    cases h
    exact (sound.at? (leads_find found).at?).1

namespace IgnoreList

def Strict (rules : IgnoreList) : Prop := ∀ r ∈ rules, r.passes = false

theorem Strict.verdict {rules : IgnoreList} (strict : rules.Strict) {path : Text} {isFolder : Bool}
    {v : Verdict} (h : rules.verdict path isFolder = some v) : v = .ignored := by
  obtain ⟨r, found, rfl⟩ := Option.map_eq_some_iff.mp h
  have mem := List.mem_reverse.mp (List.mem_of_find?_eq_some found)
  rw [strict r mem]
  rfl

theorem verdictAbove_iff {rules : IgnoreList} (strict : rules.Strict) {names : List Text}
    (proper : ∀ n ∈ names, IsName n) {fuel : Nat} (enough : names.length ≤ fuel) (isFolder : Bool) :
    rules.verdictAbove fuel (spell names) isFolder = some .ignored ↔
      ∃ front, front <+: names ∧
        rules.verdict (spell front) (isFolder || decide (front ≠ names)) = some .ignored := by
  induction names using List.reverseRecOn generalizing fuel isFolder with
  | nil =>
    have alone : rules.verdictAbove fuel (spell []) isFolder = rules.verdict (spell []) isFolder := by
      cases fuel with
      | zero => rfl
      | succ fuel =>
        rw [verdictAbove]
        cases rules.verdict (spell []) isFolder <;> rfl
    simp [alone]
  | append_singleton names name ih =>
    have count : (names ++ [name]).length = names.length + 1 := List.length_append
    rw [count] at enough
    obtain ⟨fuel, rfl⟩ := Nat.exists_eq_succ_of_ne_zero (Nat.ne_zero_of_lt enough)
    have above :=
      ih (fun n hn => proper n (List.mem_append_left _ hn)) (Nat.le_of_succ_le_succ enough) true
    have whole : (∃ front, front <+: names ++ [name] ∧ rules.verdict (spell front)
          (isFolder || decide (front ≠ names ++ [name])) = some .ignored) ↔
        rules.verdict (spell (names ++ [name])) isFolder = some .ignored ∨
          ∃ front, front <+: names ∧ rules.verdict (spell front) true = some .ignored := by
      simp only [List.prefix_concat_iff, or_and_right, exists_or, exists_eq_left]
      refine or_congr (by simp) (exists_congr fun front => and_congr_right fun part => ?_)
      have shorter : front ≠ names ++ [name] := by
        rintro rfl
        exact absurd part.length_le (by omega)
      simp [shorter]
    rw [whole, verdictAbove, parent?_spell proper]
    dsimp only
    cases here : rules.verdict (spell (names ++ [name])) isFolder with
    | none => simpa using above
    | some v => simp [strict.verdict here]

theorem ignores_spell {rules : IgnoreList} (strict : rules.Strict) {names : List Text}
    (proper : ∀ n ∈ names, IsName n) (isFolder : Bool) :
    rules.ignores (spell names) isFolder = true ↔ ∃ front, front <+: names ∧
      rules.verdict (spell front) (isFolder || decide (front ≠ names)) = some .ignored := by
  have enough : names.length ≤ (spell names).length := by
    induction names with
    | nil => exact Nat.zero_le _
    | cons name names ih =>
      have later := ih fun n hn => proper n (List.mem_cons_of_mem _ hn)
      have first := List.length_pos_of_ne_nil (proper name (by simp)).some
      cases names with
      | nil => exact first
      | cons next names =>
        have split : spell (name :: next :: names) = name ++ ['/'] ++ spell (next :: names) := rfl
        rw [split, List.length_append, List.length_append]
        simp only [List.length_cons, List.length_nil] at later ⊢
        omega
  unfold ignores
  rw [decide_eq_true_iff]
  exact verdictAbove_iff strict proper enough isFolder

theorem passes_of_parse {lenient : Bool} {line : Text} {r : IgnoreRule}
    (h : IgnoreRule.parse lenient line = .ok (some r)) (passes : r.passes = true) :
    startsWith ['!'] line = true := by
  have marked : ∀ cs, (IgnoreRule.front cs).1 = true → ∃ rest, cs = '!' :: rest := by
    intro cs
    unfold IgnoreRule.front
    split <;> simp
  have part : IgnoreRule.trimmed line <+: line := by
    unfold IgnoreRule.trimmed
    split
    · exact List.prefix_rfl
    · obtain ⟨w, split, -⟩ := trimEnd_spec line
      exact ⟨w, split.symm⟩
  unfold IgnoreRule.parse at h
  split_ifs at h with comment empty
  · cases h
  · cases h
  · obtain ⟨⟨p, tied, cs⟩, cut⟩ : ∃ t, IgnoreRule.front (IgnoreRule.trimmed line) = t := ⟨_, rfl⟩
    rw [cut] at h
    dsimp only at h
    split at h
    · cases h
    · cases h
      obtain ⟨rest, first⟩ := marked (IgnoreRule.trimmed line) (by rw [cut]; exact passes)
      rw [first] at part
      obtain ⟨t, rfl⟩ := part
      rfl

theorem mem_ofLines {n : Nat} {lines : List Text} {r : IgnoreRule} (h : r ∈ (ofLines n lines).1) :
    ∃ line ∈ lines, IgnoreRule.parse true line = .ok (some r) := by
  induction lines generalizing n with
  | nil => cases h
  | cons line lines ih =>
    have later : r ∈ (ofLines (n + 1) lines).1 →
        ∃ l ∈ line :: lines, IgnoreRule.parse true l = .ok (some r) := by
      intro h
      obtain ⟨l, mem, parsed⟩ := ih h
      exact ⟨l, List.mem_cons_of_mem _ mem, parsed⟩
    rw [ofLines] at h
    dsimp only at h
    split at h
    · exact later h
    · exact later h
    · rename_i first parsed
      rcases List.mem_cons.mp h with rfl | h
      · exact ⟨line, List.mem_cons_self .., parsed⟩
      · exact later h

theorem dropReturn_prefix (line : Text) : line.dropReturn <+: line := by
  unfold Text.dropReturn Text.dropLast?
  split
  · exact List.dropLast_prefix line
  · exact List.prefix_rfl

theorem unmarkedLines_eq {text : Text} (unmarked : text.head? ≠ some '\uFEFF') :
    unmarkedLines text = text.lines := by
  unfold unmarkedLines
  split
  · rename_i first rest lines
    have part : first <+: text := by
      obtain ⟨p, ps, cut, part, -⟩ := splitOn_parts '\n' text
      refine List.IsPrefix.trans ?_ part
      rw [Text.lines, cut] at lines
      unfold Text.endLines at lines
      split at lines
      · cases lines
      · rename_i last e
        cases e
        split at lines
        · cases lines
        · cases lines
          exact List.prefix_rfl
      · rename_i line rest e
        cases e
        cases lines
        exact dropReturn_prefix _
    have plain : first.head? ≠ some '\uFEFF' := by
      intro mark
      obtain ⟨t, rfl⟩ := part
      obtain ⟨back, rfl⟩ := List.head?_eq_some_iff.mp mark
      exact unmarked rfl
    rw [lines]
    cases first with
    | nil => rfl
    | cons c cs => rw [List.dropWhile_cons_of_neg (by simpa using plain)]
  · rename_i none
    exact none.symm

theorem strict_ofText {text : Text} (unmarked : text.head? ≠ some '\uFEFF')
    (plain : hasNegation text = false) : (ofText text).1.Strict := by
  intro r hr
  obtain ⟨line, mem, parsed⟩ := mem_ofLines hr
  rw [unmarkedLines_eq unmarked] at mem
  by_contra passes
  have marked := passes_of_parse parsed (by simpa using passes)
  exact absurd (List.any_eq_true.mpr ⟨line, mem, marked⟩) (by simpa [hasNegation] using plain)

end IgnoreList

namespace Exclusions

def Opens (x : Exclusions) (folder : Text) (names : List Text) : Prop :=
  ∀ front, front <+: names → front ≠ [] → front ≠ names → x.excludes (under folder front) true = false

theorem opens_nil (x : Exclusions) (folder : Text) : x.Opens folder [] :=
  fun _ part some => absurd (List.prefix_nil.mp part) some

theorem opens_cons (x : Exclusions) (folder name : Text) (names : List Text) :
    x.Opens folder (name :: names) ↔
      (names ≠ [] → x.excludes (join folder name) true = false) ∧ x.Opens (join folder name) names := by
  constructor
  · intro opens
    refine ⟨fun more => ?_, fun front part some other => ?_⟩
    · exact opens [name] (List.prefix_append [name] names) (by simp) (by simpa using more.symm)
    · exact opens (name :: front) (List.cons_prefix_cons.mpr ⟨rfl, part⟩) (by simp)
        (by simpa using other)
  · rintro ⟨first, later⟩ front part some other
    obtain ⟨n, front, rfl⟩ := List.exists_cons_of_ne_nil some
    obtain ⟨rfl, rest⟩ := List.cons_prefix_cons.mp part
    by_cases here : front = []
    · subst here
      exact first fun e => other (by rw [e])
    · exact later front rest here fun e => other (by rw [e])

end Exclusions

namespace Scan

variable {x : Exclusions} {f : Text}

theorem mem_withinAll {folder : Text} {entries : List (Text × Entry)} :
    f ∈ withinAll x folder entries ↔ ∃ z ∈ entries,
      x.excludes (join folder z.1) z.2.isFolder = false ∧ f ∈ within x (join folder z.1) z.2 := by
  induction entries with
  | nil => simp [withinAll]
  | cons z entries ih =>
    obtain ⟨name, e⟩ := z
    rw [withinAll, List.mem_append, ih, List.exists_mem_cons_iff]
    refine or_congr_left ?_
    split
    · rename_i excluded
      simp [excluded]
    · rename_i open'
      simp [open']

/-- A walk from an entry finds the source files below it that are not excluded, if no folder on the
way is. -/
theorem mem_within {e : Entry} (sound : e.Sound) {path : Text} :
    f ∈ within x path e ↔ ∃ names c, e.at? names = some (.file c) ∧ f = under path names ∧
      isSource f = true ∧ x.excludes f false = false ∧ x.Opens path names := by
  induction sound generalizing path with
  | file c =>
    rw [within]
    constructor
    · intro mem
      split at mem
      · rename_i kept
        cases List.mem_singleton.mp mem
        simp only [Bool.and_eq_true, Bool.not_eq_true'] at kept
        exact ⟨[], c, rfl, rfl, kept.1, kept.2, x.opens_nil f⟩
      · cases mem
    · rintro ⟨names, c', here, rfl, source, kept, -⟩
      cases names with
      | nil =>
        have taken : (isSource path && !x.excludes path false) = true := by
          rw [Bool.and_eq_true, Bool.not_eq_true']
          exact ⟨source, kept⟩
        rw [if_pos taken]
        exact List.mem_singleton.mpr rfl
      | cons name names => cases here
  | @folder entries distinct _ _ ih =>
    rw [within, mem_withinAll]
    constructor
    · rintro ⟨⟨name, e⟩, mem, entered, inside⟩
      obtain ⟨names, c, below, rfl, source, kept, opens⟩ := (ih _ mem).mp inside
      refine ⟨name :: names, c, ?_, rfl, source, kept, (x.opens_cons ..).mpr ⟨fun more => ?_, opens⟩⟩
      · rw [Entry.at?, Entry.lookup_of_mem distinct mem]
        exact below
      · obtain ⟨next, names, rfl⟩ := List.exists_cons_of_ne_nil more
        cases e with
        | file c => cases below
        | folder entries => exact entered
        | link target => cases below
    · rintro ⟨names, c, below, rfl, source, kept, opens⟩
      cases names with
      | nil => cases below
      | cons name names =>
        obtain ⟨e, found, below⟩ := Option.bind_eq_some_iff.mp below
        obtain ⟨first, opens⟩ := (x.opens_cons ..).mp opens
        have mem := Entry.mem_of_lookup found
        refine ⟨(name, e), mem, ?_, (ih _ mem).mpr ⟨names, c, below, rfl, source, kept, opens⟩⟩
        cases names with
        | nil =>
          cases below
          exact kept
        | cons next names =>
          cases e with
          | file c => cases below
          | folder entries => exact first (by simp)
          | link target => cases below

theorem mem_roots {disk : Disk} {starts : List Text} : f ∈ (roots disk x starts).1 ↔
    ∃ start ∈ starts, ∃ e, disk.entry? start = some e ∧ f ∈ within x start e := by
  induction starts with
  | nil => simp [roots]
  | cons start starts ih =>
    rw [roots, List.exists_mem_cons_iff, ← ih]
    dsimp only
    cases disk.entry? start with
    | none => simp
    | some e => simp

theorem mem_dropRepeats {ts : List Text} : f ∈ dropRepeats ts ↔ f ∈ ts := by
  induction ts with
  | nil => rfl
  | cons t ts ih =>
    cases ts with
    | nil => rfl
    | cons u ts =>
      rw [dropRepeats]
      split
      · rename_i same
        rw [ih, same]
        simp
      · rw [List.mem_cons, ih, ← List.mem_cons]

def exclusions (disk : Disk) (folder : Text) (ignores : List Text) (useIgnoreFiles : Bool) :
    Exclusions where
  folder
  patterns := (patternRules ignores).1
  listed := (if useIgnoreFiles then listedRules disk folder ignoreFiles else ([], [])).1

theorem run_files (disk : Disk) (folder : Text) (paths ignores : List Text)
    (useIgnoreFiles verbose : Bool) :
    (run disk folder paths ignores useIgnoreFiles verbose).files = dropRepeats
      ((roots disk (exclusions disk folder ignores useIgnoreFiles)
        (if paths.isEmpty then [folder] else paths.map (join folder))).1.mergeSort Text.le) :=
  rfl

theorem mem_run {disk : Disk} {folder : Text} {paths ignores : List Text}
    {useIgnoreFiles verbose : Bool} :
    f ∈ (run disk folder paths ignores useIgnoreFiles verbose).files ↔
      ∃ start ∈ if paths.isEmpty then [folder] else paths.map (join folder),
        ∃ e, disk.entry? start = some e ∧
          f ∈ within (exclusions disk folder ignores useIgnoreFiles) start e := by
  rw [run_files, mem_dropRepeats, List.mem_mergeSort, mem_roots]

theorem strict_listedRules {disk : Disk} {folder : Text} {names : List Text}
    (unmarked : ∀ name ∈ names, ∀ text, disk.read (join folder name) = .ok text →
      text.head? ≠ some '\uFEFF') : (listedRules disk folder names).1.Strict := by
  induction names with
  | nil => exact nofun
  | cons name names ih =>
    rw [listedRules]
    split
    · rename_i text found
      unfold fileRules
      split
      · exact nofun
      · rename_i plain
        have strict := IgnoreList.strict_ofText (unmarked name (by simp) text found)
          (Bool.eq_false_iff.mpr plain)
        dsimp only
        split
        · exact strict
        · exact strict
    · exact ih fun n hn => unmarked n (List.mem_cons_of_mem _ hn)

end Scan

namespace Exclusions

def Closes (x : Exclusions) (names : List Text) : Prop :=
  (∃ name ∈ names.getLast?, name ∈ skippedFolders) ∨
    x.patterns.verdict (spell names) true = some .passed

def Lists (x : Exclusions) (names : List Text) : Prop :=
  ∃ front, front <+: names ∧ x.listed.verdict (spell front) (decide (front ≠ names)) = some .ignored

variable {x : Exclusions} (absolute : isAbsolute x.folder = true) (strict : x.listed.Strict)

include absolute in
theorem excludes_under {names : List Text} (some : names ≠ []) (proper : ∀ n ∈ names, IsName n)
    (isFolder : Bool) : x.excludes (under x.folder names) isFolder =
      ((isFolder && names.getLast?.any skippedFolders.contains) ||
        x.leavesOut (spell names) isFolder) := by
  have solid : (spell names).isEmpty = false := by
    simpa using spell_ne_nil some proper
  have name : fileName? (under x.folder names) = names.getLast? := by
    obtain ⟨front, last, rfl⟩ := (List.eq_nil_or_concat names).resolve_left some
    rw [List.concat_eq_append] at proper ⊢
    rw [fileName?_under absolute proper, List.getLast?_concat]
  have inside : below? x.folder (under x.folder names) = Option.some (spell names) := by
    obtain ⟨first, names, rfl⟩ := List.exists_cons_of_ne_nil some
    exact below?_under absolute proper
  unfold excludes
  rw [name, inside]
  dsimp only
  rw [solid]
  rfl

include absolute strict in
theorem excludes_folder {names : List Text} (some : names ≠ []) (proper : ∀ n ∈ names, IsName n) :
    x.excludes (under x.folder names) true = true ↔ x.Closes names ∨
      ∃ front, front <+: names ∧ x.listed.verdict (spell front) true = Option.some .ignored := by
  rw [excludes_under absolute some proper, Bool.or_eq_true, leavesOut, Bool.or_eq_true,
    IgnoreList.ignores_spell strict proper, decide_eq_true_iff]
  simp only [Closes, Bool.true_and, Bool.true_or, Option.any_eq_true, List.contains_iff_mem, or_assoc]
  rfl

include absolute strict in
theorem excludes_file {names : List Text} (some : names ≠ []) (proper : ∀ n ∈ names, IsName n) :
    x.excludes (under x.folder names) false = true ↔
      x.patterns.verdict (spell names) false = Option.some .passed ∨ x.Lists names := by
  rw [excludes_under absolute some proper, leavesOut, Bool.false_and, Bool.false_or, Bool.or_eq_true,
    IgnoreList.ignores_spell strict proper, decide_eq_true_iff]
  simp only [Lists, Bool.false_or]

structure Keeps (x : Exclusions) (disk : Disk) (names : List Text) : Prop where
  file : ∃ c, disk.entry? (under x.folder names) = some (.file c)
  source : isSource (under x.folder names) = true
  unmatched : x.patterns.verdict (spell names) false ≠ some .passed
  unlisted : ¬ x.Lists names

def Passes (x : Exclusions) (rel names : List Text) : Prop :=
  ∀ front, front <+: names → rel <+: front → front ≠ rel → front ≠ names → ¬ x.Closes front

theorem passes_concat (x : Exclusions) (rel : List Text) (name : Text) : x.Passes rel (rel ++ [name]) := by
  intro front part below here there
  rcases List.prefix_concat_iff.mp part with same | above
  · exact absurd same there
  · exact absurd (above.eq_of_length_le below.length_le) here

include absolute strict in
theorem opens_iff {rel rest : List Text} (proper : ∀ n ∈ rel ++ rest, IsName n)
    (unlisted : ¬ x.Lists (rel ++ rest)) :
    x.Opens (under x.folder rel) rest ↔ x.Passes rel (rel ++ rest) := by
  have entered : ∀ front, front <+: rest → front ≠ [] → front ≠ rest →
      (x.excludes (under x.folder (rel ++ front)) true = false ↔ ¬ x.Closes (rel ++ front)) := by
    intro front part some other
    obtain ⟨back, rfl⟩ := part
    have proper' : ∀ n ∈ rel ++ front, IsName n := fun n hn =>
      proper n (by rw [← List.append_assoc]; exact List.mem_append_left _ hn)
    rw [← Bool.not_eq_true, excludes_folder absolute strict (by simp [some]) proper', not_or,
      and_iff_left_iff_imp]
    rintro - ⟨above, part, listed⟩
    have shorter : above ≠ rel ++ (front ++ back) := by
      rintro rfl
      have := part.length_le
      simp only [List.length_append] at this
      exact other (by simp [List.length_eq_zero_iff.mp (by omega : back.length = 0)])
    refine unlisted ⟨above, part.trans ⟨back, List.append_assoc ..⟩, ?_⟩
    rwa [decide_eq_true shorter]
  constructor
  · rintro opens front part ⟨front, rfl⟩ here there
    rw [List.prefix_append_right_inj] at part
    have some : front ≠ [] := by simpa using here
    have other : front ≠ rest := by simpa using there
    refine (entered front part some other).mp ?_
    rw [under_append]
    exact opens front part some other
  · intro passes front part some other
    rw [← under_append]
    refine (entered front part some other).mpr (passes _ ?_ (List.prefix_append ..) ?_ ?_)
    · exact (List.prefix_append_right_inj _).mpr part
    · simpa using some
    · simpa using other

include absolute strict in
/-- A walk from a place below the folder finds what is kept below it, unless a folder on the way is
closed. -/
theorem mem_within_under {disk : Disk} (sound : disk.root.Sound) {rel names : List Text}
    (proper : ∀ n ∈ rel, IsName n) (proper' : ∀ n ∈ names, IsName n) (some : names ≠ []) :
    (∃ e, disk.entry? (under x.folder rel) = Option.some e ∧
      under x.folder names ∈ Scan.within x (under x.folder rel) e) ↔
      rel <+: names ∧ x.Keeps disk names ∧ x.Passes rel names := by
  have leads : ∀ {rest}, (∀ n ∈ rest, IsName n) → disk.entry? (under x.folder (rel ++ rest)) =
      (disk.entry? (under x.folder rel)).bind (Entry.at? rest) := by
    intro rest proper'
    rw [under_append, (Disk.unlinked sound).entry?_under (isAbsolute_under absolute proper) proper']
  constructor
  · rintro ⟨e, here, mem⟩
    have solid := disk.sound_entry? sound here
    obtain ⟨rest, c, below, same, source, kept, opens⟩ := (Scan.mem_within solid).mp mem
    have proper'' := (solid.at? below).2
    rw [← under_append] at same
    obtain rfl := under_injective absolute proper'
      (List.forall_mem_append.mpr ⟨proper, proper''⟩) same
    rw [← Bool.not_eq_true, excludes_file absolute strict some proper', not_or] at kept
    refine ⟨List.prefix_append .., ⟨⟨c, ?_⟩, source, kept.1, kept.2⟩,
      (opens_iff absolute strict proper' kept.2).mp opens⟩
    rw [leads proper'', here]
    exact below
  · rintro ⟨⟨rest, rfl⟩, keeps, passes⟩
    obtain ⟨⟨c, file⟩, source, unmatched, unlisted⟩ := keeps
    rw [leads fun n hn => proper' n (List.mem_append_right _ hn)] at file
    obtain ⟨e, here, below⟩ := Option.bind_eq_some_iff.mp file
    refine ⟨e, here, (Scan.mem_within (disk.sound_entry? sound here)).mpr
      ⟨rest, c, below, under_append .., source, ?_, (opens_iff absolute strict proper' unlisted).mpr passes⟩⟩
    rw [← Bool.not_eq_true, excludes_file absolute strict some proper', not_or]
    exact ⟨unmatched, unlisted⟩

end Exclusions

namespace Scan

section Run

variable {disk : Disk} {folder : Text} {ignores : List Text} {useIgnoreFiles verbose : Bool}

theorem strict_exclusions
    (unmarked : ∀ name ∈ ignoreFiles, ∀ text, disk.read (join folder name) = .ok text →
      text.head? ≠ some '\uFEFF') :
    (exclusions disk folder ignores useIgnoreFiles).listed.Strict := by
  show (if useIgnoreFiles then listedRules disk folder ignoreFiles else ([], [])).1.Strict
  split
  · exact strict_listedRules unmarked
  · exact nofun

theorem mem_run_paths (absolute : isAbsolute folder = true) {rels : List (List Text)}
    (some : rels ≠ []) (inside : ∀ rel ∈ rels, rel ≠ [] ∧ ∀ n ∈ rel, IsName n) {f : Text} :
    f ∈ (run disk folder (rels.map spell) ignores useIgnoreFiles verbose).files ↔
      ∃ rel ∈ rels, ∃ e, disk.entry? (under folder rel) = Option.some e ∧
        f ∈ within (exclusions disk folder ignores useIgnoreFiles) (under folder rel) e := by
  have starts : (rels.map spell).map (join folder) = rels.map (under folder) := by
    rw [List.map_map]
    exact List.map_congr_left fun rel mem => join_spell absolute (inside rel mem).1 (inside rel mem).2
  have asked : (rels.map spell).isEmpty = false := by simpa using some
  rw [mem_run, asked, starts]
  simp only [Bool.false_eq_true, if_false, List.mem_map, exists_exists_and_eq_and]

theorem exists_names_of_mem (sound : disk.root.Sound) (absolute : isAbsolute folder = true)
    {rels : List (List Text)} (some : rels ≠ [])
    (inside : ∀ rel ∈ rels, rel ≠ [] ∧ ∀ n ∈ rel, IsName n) {f : Text}
    (found : f ∈ (run disk folder (rels.map spell) ignores useIgnoreFiles verbose).files) :
    ∃ names, names ≠ [] ∧ (∀ n ∈ names, IsName n) ∧ f = under folder names := by
  obtain ⟨rel, mem, e, here, walk⟩ := (mem_run_paths absolute some inside).mp found
  have solid := disk.sound_entry? sound here
  obtain ⟨rest, c, below, rfl, -⟩ := (mem_within solid).mp walk
  exact ⟨rel ++ rest, by simp [(inside rel mem).1],
    List.forall_mem_append.mpr ⟨(inside rel mem).2, (solid.at? below).2⟩, (under_append ..).symm⟩

end Run

/-- Without paths a scan finds the source files below the folder that neither a pattern nor the
ignore file leaves out, unless a folder above them is closed. With paths it finds those below each
path unless a folder is closed that lies between the path and the file: the path itself and the
folders above it are not asked. So it finds nothing new if none of these is closed.

The ignore file holds in both cases. A byte order mark in front of it would hide a line that lets
paths pass. -/
theorem run_from_paths {disk : Disk} (sound : disk.root.Sound) {folder : Text}
    (absolute : isAbsolute folder = true) {rels : List (List Text)} (some : rels ≠ [])
    (inside : ∀ rel ∈ rels, rel ≠ [] ∧ ∀ n ∈ rel, IsName n) (ignores : List Text)
    (useIgnoreFiles verbose : Bool)
    (unmarked : ∀ name ∈ ignoreFiles, ∀ text, disk.read (join folder name) = .ok text →
      text.head? ≠ Option.some '\uFEFF') :
    let x := exclusions disk folder ignores useIgnoreFiles
    let all := (run disk folder [] ignores useIgnoreFiles verbose).files
    let found := (run disk folder (rels.map spell) ignores useIgnoreFiles verbose).files
    (∀ names, names ≠ [] → (∀ n ∈ names, IsName n) →
      (under folder names ∈ all ↔ x.Keeps disk names ∧ x.Passes [] names) ∧
      (under folder names ∈ found ↔
        x.Keeps disk names ∧ ∃ rel ∈ rels, rel <+: names ∧ x.Passes rel names)) ∧
    (∀ f ∈ found, ∃ names, names ≠ [] ∧ (∀ n ∈ names, IsName n) ∧ f = under folder names) ∧
    ((∀ rel ∈ rels, ∀ front, front <+: rel → front ≠ [] → ¬ x.Closes front) → found ⊆ all) := by
  intro x all found
  have strict : x.listed.Strict := strict_exclusions unmarked
  have both : ∀ names, names ≠ [] → (∀ n ∈ names, IsName n) →
      (under folder names ∈ all ↔ x.Keeps disk names ∧ x.Passes [] names) ∧
      (under folder names ∈ found ↔
        x.Keeps disk names ∧ ∃ rel ∈ rels, rel <+: names ∧ x.Passes rel names) := by
    intro names some' proper
    constructor
    · have walk : (∃ e, disk.entry? (under folder []) = Option.some e ∧
          under folder names ∈ within x (under folder []) e) ↔ _ :=
        Exclusions.mem_within_under (x := x) absolute strict sound nofun proper some'
      refine mem_run.trans ?_
      simp only [List.isEmpty_nil, if_true, List.mem_singleton, exists_eq_left]
      exact walk.trans (and_iff_right List.nil_prefix)
    · refine (mem_run_paths absolute some inside).trans ⟨?_, ?_⟩
      · rintro ⟨rel, mem, walk⟩
        obtain ⟨part, keeps, passes⟩ :=
          (Exclusions.mem_within_under absolute strict sound (inside rel mem).2 proper some').mp walk
        exact ⟨keeps, rel, mem, part, passes⟩
      · rintro ⟨keeps, rel, mem, part, passes⟩
        exact ⟨rel, mem, (Exclusions.mem_within_under absolute strict sound (inside rel mem).2 proper
          some').mpr ⟨part, keeps, passes⟩⟩
  have named : ∀ f ∈ found, ∃ names, names ≠ [] ∧ (∀ n ∈ names, IsName n) ∧ f = under folder names :=
    fun f => exists_names_of_mem sound absolute some inside
  refine ⟨both, named, fun clear f hf => ?_⟩
  obtain ⟨names, some, proper, rfl⟩ := named f hf
  obtain ⟨keeps, rel, mem, part, passes⟩ := (both names some proper).2.mp hf
  refine (both names some proper).1.mpr ⟨keeps, fun front part' _ here there => ?_⟩
  rcases List.prefix_or_prefix_of_prefix part' part with above | below
  · exact clear rel mem front above here
  · by_cases root : front = rel
    · exact clear rel mem front (root ▸ List.prefix_rfl) here
    · exact passes front part' below root there

namespace Attic

def sheet : Entry := .file (.text [])

/-- A project with old code, an installed package and an ignore file. -/
def disk (ignored : String) : Disk where
  root := .folder [("p".toList, .folder [
    ("legacy".toList, .folder [("old.js".toList, sheet)]),
    ("node_modules".toList, .folder [("x.js".toList, sheet)]),
    ("src".toList, .folder [("a.js".toList, sheet)]),
    (".gitignore".toList, .file (.text ignored.toList))])]

def old : List Text := ["legacy".toList, "old.js".toList]

theorem sound (ignored : String) : (disk ignored).root.Sound := by
  have sheet : ∀ name, IsName name → (Entry.folder [(name, sheet)]).Sound := fun name proper =>
    .folder (List.nodup_singleton name) (by simpa using proper) (by simpa using .file (.text []))
  have project : (Entry.folder [("legacy".toList, .folder [("old.js".toList, Attic.sheet)]),
      ("node_modules".toList, .folder [("x.js".toList, Attic.sheet)]),
      ("src".toList, .folder [("a.js".toList, Attic.sheet)]),
      (".gitignore".toList, .file (.text ignored.toList))]).Sound := by
    refine .folder (by simp) (by simp only [List.forall_mem_cons]; decide) ?_
    simp only [List.forall_mem_cons]
    exact ⟨sheet _ (by decide), sheet _ (by decide), sheet _ (by decide), .file _, nofun⟩
  exact .folder (List.nodup_singleton _) (by simpa using (by decide : IsName ['p']))
    (by simpa using project)

end Attic

open Attic in
theorem run_from_paths_attic :
    let found := (run (disk "") "/p".toList [spell ["legacy".toList]] ["legacy".toList] true false).files
    let all := (run (disk "") "/p".toList [] ["legacy".toList] true false).files
    under "/p".toList old ∈ found ∧ under "/p".toList old ∉ all := by
  have unmarked : ∀ name ∈ ignoreFiles, ∀ text, (disk "").read (join "/p".toList name) = .ok text →
      text.head? ≠ some '\uFEFF' := by
    have first : (disk "").read (join "/p".toList ".eslintignore".toList) = .error .missing := by
      decide +kernel
    have second : (disk "").read (join "/p".toList ".gitignore".toList) = .ok [] := by
      decide +kernel
    intro name mem text read
    rcases List.mem_pair.mp mem with rfl | rfl
    · rw [first] at read
      cases read
    · rw [second] at read
      cases read
      exact nofun
  obtain ⟨both, -⟩ := run_from_paths (sound "") (by decide) (by decide : [["legacy".toList]] ≠ [])
    (by decide) ["legacy".toList] true false unmarked
  obtain ⟨all, found⟩ := both old (by decide) (by decide)
  have keeps : (exclusions (disk "") "/p".toList ["legacy".toList] true).Keeps (disk "") old := by
    refine ⟨⟨.text [], by rfl⟩, by decide +kernel, by decide +kernel, ?_⟩
    rintro ⟨front, -, listed⟩
    cases listed
  refine ⟨found.mpr ⟨keeps, ["legacy".toList], by simp, by decide, Exclusions.passes_concat _ _ "old.js".toList⟩,
    fun mem => ?_⟩
  refine (all.mp mem).2 ["legacy".toList] (by decide) (by decide) (by decide) (by decide) (.inr ?_)
  decide +kernel

open Attic in
/-- A path brings back files of a folder that a pattern leaves out, and those of packages, but not
those of a folder that the ignore file lists. -/
theorem run_brings_back :
    let files paths ignores ignored := (run (disk ignored) "/p".toList paths ignores true false).files
    files [] ["legacy".toList] "" = ["/p/src/a.js".toList] ∧
    files ["legacy".toList] ["legacy".toList] "" = ["/p/legacy/old.js".toList] ∧
    files ["node_modules".toList] ["legacy".toList] "" = ["/p/node_modules/x.js".toList] ∧
    files ["legacy".toList] [] "legacy" = [] := by
  have alone : ∀ paths ignores ignored found, found.length ≤ 1 → (roots (disk ignored)
      (exclusions (disk ignored) "/p".toList ignores true)
      (if paths.isEmpty then ["/p".toList] else paths.map (join "/p".toList))).1 = found →
      (run (disk ignored) "/p".toList paths ignores true false).files = found := by
    intro paths ignores ignored found few h
    rw [run_files, h]
    match found, few with
    | [], _ => rw [List.mergeSort_nil]; rfl
    | [f], _ => rw [List.mergeSort_singleton]; rfl
  exact ⟨alone _ _ _ _ (by decide) (by decide +kernel), alone _ _ _ _ (by decide) (by decide +kernel),
    alone _ _ _ _ (by decide) (by decide +kernel), alone _ _ _ _ (by decide) (by decide +kernel)⟩

end Scan
end Quell
