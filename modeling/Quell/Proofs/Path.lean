import Quell.Proofs.Directive
import Quell.Proofs.Disk

/-!
Paths below a folder, as texts and as lists of names.

Names that are put below an absolute folder one by one give the text of the folder, a slash and the
names with slashes between (`under_cons`). From that text the names come back: what lies below the
folder is spelled by them (`below?_under`), the last one is the name of the entry, and the path leads
where the names lead from the folder (`entry?_under`).
-/
namespace Quell

open Text

namespace Path

/-- A name of an entry: it is no step on the spot or upwards, and holds no slash. -/
structure IsName (name : Text) : Prop where
  some : name ≠ []
  free : '/' ∉ name
  point : name ≠ ['.']
  points : name ≠ ['.', '.']

instance (name : Text) : Decidable (IsName name) :=
  decidable_of_iff (name ≠ [] ∧ '/' ∉ name ∧ name ≠ ['.'] ∧ name ≠ ['.', '.'])
    ⟨fun h => ⟨h.1, h.2.1, h.2.2.1, h.2.2.2⟩, fun h => ⟨h.some, h.free, h.point, h.points⟩⟩

def under (folder : Text) (names : List Text) : Text := names.foldl join folder

theorem under_append (folder : Text) (names rest : List Text) :
    under folder (names ++ rest) = under (under folder names) rest :=
  List.foldl_append

def spell (names : List Text) : Text := joinWith ['/'] names

theorem spell_cons (name : Text) (ns : List Text) : ∃ t, spell (name :: ns) = name ++ t := by
  cases ns with
  | nil => exact ⟨[], (List.append_nil name).symm⟩
  | cons next ns => exact ⟨_, by rw [spell, joinWith, List.append_assoc]⟩

theorem spell_ne_nil {names : List Text} (some : names ≠ []) (proper : ∀ n ∈ names, IsName n) :
    spell names ≠ [] := by
  obtain ⟨name, names, rfl⟩ := List.exists_cons_of_ne_nil some
  obtain ⟨t, split⟩ := spell_cons name names
  rw [split]
  exact List.append_ne_nil_of_left_ne_nil (proper name (by simp)).some t

theorem spell_concat {names : List Text} (some : names ≠ []) (name : Text) :
    spell (names ++ [name]) = spell names ++ '/' :: name := by
  unfold spell
  rw [joinWith_concat _ _ some, List.append_assoc]
  rfl

theorem splitOn_spell {names : List Text} (some : names ≠ []) (free : ∀ n ∈ names, '/' ∉ n) :
    splitOn '/' (spell names) = names := by
  induction names with
  | nil => exact absurd rfl some
  | cons n names ih =>
    cases names with
    | nil => exact splitOn_of_not_mem (free n (by simp))
    | cons m names =>
      have later : splitOn '/' (spell (m :: names)) = m :: names :=
        ih nofun fun k hk => free k (List.mem_cons_of_mem _ hk)
      have split : spell (n :: m :: names) = n ++ '/' :: spell (m :: names) := by
        unfold spell
        rw [joinWith, List.append_assoc]
        rfl
      rw [split, splitOn_append (free n (by simp)), later]

def slashed (folder : Text) : Text := if folder.getLast? = some '/' then folder else folder ++ ['/']

theorem slashed_cases (folder : Text) :
    ∃ g, slashed folder = g ++ ['/'] ∧ (folder = g ∨ folder = g ++ ['/']) := by
  unfold slashed
  split
  · rename_i ends
    obtain ⟨g, rfl⟩ := List.getLast?_eq_some_iff.mp ends
    exact ⟨g, rfl, .inr rfl⟩
  · exact ⟨folder, rfl, .inl rfl⟩

theorem IsName.head {name : Text} (h : IsName name) : ∃ c cs, name = c :: cs ∧ '/' ≠ c := by
  obtain ⟨c, cs, rfl⟩ := List.exists_cons_of_ne_nil h.some
  exact ⟨c, cs, rfl, fun e => h.free (List.mem_cons.mpr (.inl e))⟩

theorem isAbsolute_cons {c : Char} (apart : '/' ≠ c) (cs : Text) : isAbsolute (c :: cs) = false := by
  simp [isAbsolute, startsWith, after?, apart]

theorem IsName.relative {name : Text} (h : IsName name) : isAbsolute name = false := by
  obtain ⟨c, cs, rfl, apart⟩ := h.head
  exact isAbsolute_cons apart cs

theorem join_of_relative {folder p : Text} (absolute : isAbsolute folder = true)
    (relative : isAbsolute p = false) : join folder p = slashed folder ++ p := by
  have some : folder.isEmpty = false := by
    cases folder with
    | nil => cases absolute
    | cons c cs => rfl
  unfold join slashed
  rw [if_neg (by simp [relative]), some]
  simp only [Bool.false_or, decide_eq_true_eq]
  split
  · rfl
  · rw [List.append_assoc]
    rfl

theorem isAbsolute_append {p : Text} (absolute : isAbsolute p = true) (t : Text) :
    isAbsolute (p ++ t) = true := by
  cases p with
  | nil => cases absolute
  | cons c cs =>
    unfold isAbsolute startsWith after? at absolute ⊢
    rw [List.cons_append]
    dsimp only
    split
    · simp [after?]
    · rename_i other
      rw [if_neg other] at absolute
      cases absolute

theorem isAbsolute_slashed {folder : Text} (absolute : isAbsolute folder = true) :
    isAbsolute (slashed folder) = true := by
  unfold slashed
  split
  · exact absolute
  · exact isAbsolute_append absolute _

theorem slashed_append {name : Text} (h : IsName name) (folder : Text) :
    slashed (folder ++ name) = folder ++ name ++ ['/'] := by
  unfold slashed
  refine if_neg fun ends => ?_
  rw [List.getLast?_append_of_ne_nil _ h.some] at ends
  exact h.free (List.mem_of_getLast? ends)

theorem under_cons {folder : Text} (absolute : isAbsolute folder = true) {name : Text}
    {names : List Text} (proper : ∀ n ∈ name :: names, IsName n) :
    under folder (name :: names) = slashed folder ++ spell (name :: names) := by
  induction names generalizing folder name with
  | nil => exact join_of_relative absolute (proper name (by simp)).relative
  | cons next names ih =>
    have first := join_of_relative absolute (proper name (by simp)).relative
    have below : isAbsolute (join folder name) = true := by
      rw [first]
      exact isAbsolute_append (isAbsolute_slashed absolute) _
    have later := ih below fun n hn => proper n (List.mem_cons_of_mem _ hn)
    rw [first, slashed_append (proper name (by simp))] at later
    show under (join folder name) (next :: names) = _
    rw [first, later]
    unfold spell
    rw [joinWith]
    simp only [List.append_assoc]

theorem isAbsolute_under {folder : Text} (absolute : isAbsolute folder = true) {names : List Text}
    (proper : ∀ n ∈ names, IsName n) : isAbsolute (under folder names) = true := by
  cases names with
  | nil => exact absolute
  | cons name names =>
    rw [under_cons absolute proper]
    exact isAbsolute_append (isAbsolute_slashed absolute) _

theorem under_concat {folder : Text} (absolute : isAbsolute folder = true) {names : List Text}
    {name : Text} (proper : ∀ n ∈ names ++ [name], IsName n) :
    under folder (names ++ [name]) = slashed (under folder names) ++ name := by
  have above := isAbsolute_under absolute fun n hn => proper n (List.mem_append_left _ hn)
  rw [under, List.foldl_concat]
  exact join_of_relative above (proper name (by simp)).relative

theorem join_spell {folder : Text} (absolute : isAbsolute folder = true) {names : List Text}
    (some : names ≠ []) (proper : ∀ n ∈ names, IsName n) :
    join folder (spell names) = under folder names := by
  obtain ⟨name, names, rfl⟩ := List.exists_cons_of_ne_nil some
  rw [under_cons absolute proper]
  refine join_of_relative absolute ?_
  obtain ⟨c, cs, rfl, apart⟩ := (proper name (by simp)).head
  obtain ⟨t, split⟩ := spell_cons (c :: cs) names
  rw [split]
  exact isAbsolute_cons apart _

theorem filter_splitOn_slashed (folder t : Text) :
    (splitOn '/' (slashed folder ++ t)).filter (!·.isEmpty) =
      (splitOn '/' folder).filter (!·.isEmpty) ++ (splitOn '/' t).filter (!·.isEmpty) := by
  obtain ⟨g, split, whole⟩ := slashed_cases folder
  rw [split, List.append_assoc, List.singleton_append, splitOn_append_cons, List.filter_append]
  congr 1
  rcases whole with rfl | rfl
  · rfl
  · rw [splitOn_append_cons, List.filter_append]
    simp [splitOn]

theorem names_eq (p : Text) :
    names p = ((splitOn '/' p).filter (!·.isEmpty)).filter (· != ['.']) := by
  unfold names
  rw [List.filter_filter]
  congr 1
  funext x
  rw [Bool.and_comm]

theorem filter_proper {ns : List Text} (proper : ∀ n ∈ ns, IsName n) :
    ns.filter (!·.isEmpty) = ns ∧ ns.filter (· != ['.']) = ns := by
  constructor
  · exact List.filter_eq_self.mpr fun n hn => by simpa using (proper n hn).some
  · exact List.filter_eq_self.mpr fun n hn => by simpa using (proper n hn).point

theorem steps_under {folder : Text} (absolute : isAbsolute folder = true) {ns : List Text}
    (proper : ∀ n ∈ ns, IsName n) : (splitOn '/' (under folder ns)).filter (!·.isEmpty) =
      (splitOn '/' folder).filter (!·.isEmpty) ++ ns := by
  cases ns with
  | nil => rw [List.append_nil]; rfl
  | cons name ns =>
    rw [under_cons absolute proper, filter_splitOn_slashed,
      splitOn_spell (List.cons_ne_nil _ _) fun n hn => (proper n hn).free, (filter_proper proper).1]

theorem names_under {folder : Text} (absolute : isAbsolute folder = true) {ns : List Text}
    (proper : ∀ n ∈ ns, IsName n) : names (under folder ns) = names folder ++ ns := by
  rw [names_eq, steps_under absolute proper, List.filter_append, (filter_proper proper).2, names_eq]

theorem under_injective {folder : Text} (absolute : isAbsolute folder = true) {ns ms : List Text}
    (proper : ∀ n ∈ ns, IsName n) (proper' : ∀ n ∈ ms, IsName n)
    (same : under folder ns = under folder ms) : ns = ms := by
  have names := congrArg names same
  rw [names_under absolute proper, names_under absolute proper'] at names
  exact List.append_cancel_left names

theorem fileName?_under {folder : Text} (absolute : isAbsolute folder = true) {ns : List Text}
    {name : Text} (proper : ∀ n ∈ ns ++ [name], IsName n) :
    fileName? (under folder (ns ++ [name])) = some name := by
  unfold fileName?
  rw [names_under absolute proper, ← List.append_assoc, List.getLast?_concat]
  simp [(proper name (by simp)).points]

theorem trimFront_name {name : Text} (some : name ≠ []) (free : '/' ∉ name) (point : name ≠ ['.'])
    (t : Text) : trimFront (name ++ t) = name ++ t := by
  obtain ⟨c, cs, rfl⟩ := List.exists_cons_of_ne_nil some
  have apart : '/' ≠ c := fun e => free (List.mem_cons.mpr (.inl e))
  rw [List.cons_append]
  unfold trimFront
  split
  · rename_i e
    exact absurd (List.cons.inj e).1.symm apart
  · rename_i e
    obtain ⟨rfl, rest⟩ := List.cons.inj e
    cases cs with
    | nil => exact absurd rfl point
    | cons d cs =>
      obtain ⟨rfl, -⟩ := List.cons.inj rest
      exact absurd (by simp) free
  · rename_i e
    obtain ⟨rfl, rest⟩ := List.cons.inj e
    exact absurd (by rw [(List.append_eq_nil_iff.mp rest).1]) point
  · rfl

theorem trimBackwards_name {name : Text} (some : name ≠ []) (free : '/' ∉ name)
    (point : name ≠ ['.']) (t : Text) :
    trimBackwards (name.reverse ++ t) = name.reverse ++ t := by
  have free' : '/' ∉ name.reverse := by simpa using free
  have point' : name.reverse ≠ ['.'] := fun e => point (List.reverse_eq_iff.mp e)
  obtain ⟨c, cs, split⟩ := List.exists_cons_of_ne_nil (by simpa using some : name.reverse ≠ [])
  rw [split] at free' point' ⊢
  have apart : '/' ≠ c := fun e => free' (List.mem_cons.mpr (.inl e))
  rw [List.cons_append]
  unfold trimBackwards
  split
  · rename_i e
    exact absurd (List.cons.inj e).1.symm apart
  · rename_i e
    exact absurd (List.cons.inj e).1.symm apart
  · rename_i e
    obtain ⟨rfl, rest⟩ := List.cons.inj e
    cases cs with
    | nil => exact absurd rfl point'
    | cons d cs =>
      obtain ⟨rfl, -⟩ := List.cons.inj rest
      exact absurd (by simp) free'
  · rfl

theorem trimFront_slash (t : Text) : trimFront ('/' :: t) = trimFront t := by
  rw [trimFront]

theorem trimFront_point (t : Text) : trimFront ('.' :: '/' :: t) = trimFront t := by
  rw [trimFront, trimFront]

theorem trimFront_spell {ns : List Text} (proper : ∀ n ∈ ns, IsName n) :
    trimFront (spell ns) = spell ns := by
  cases ns with
  | nil => rfl
  | cons name ns =>
    obtain ⟨some, free, point, -⟩ := proper name (by simp)
    obtain ⟨t, split⟩ := spell_cons name ns
    rw [split, trimFront_name some free point]

theorem trimBackwards_spell {ns : List Text} (proper : ∀ n ∈ ns, IsName n) :
    trimBackwards (spell ns).reverse = (spell ns).reverse := by
  rcases List.eq_nil_or_concat ns with rfl | ⟨front, name, rfl⟩
  · rfl
  · rw [List.concat_eq_append] at proper ⊢
    obtain ⟨some, free, point, -⟩ := proper name (by simp)
    by_cases alone : front = []
    · subst alone
      have := trimBackwards_name some free point []
      rwa [List.append_nil] at this
    · rw [spell_concat alone, List.reverse_append, List.reverse_cons, List.append_assoc,
        List.singleton_append]
      exact trimBackwards_name some free point _

theorem afterNames?_congr {ns : List Text} {p q : Text} (same : trimFront p = trimFront q) :
    afterNames? ns p = afterNames? ns q := by
  cases ns with
  | nil => rw [afterNames?, afterNames?, same]
  | cons n ns => rw [afterNames?, afterNames?, same]

theorem afterNames?_joinWith (parts : List Text) (free : ∀ p ∈ parts, '/' ∉ p) (t : Text) :
    afterNames? (parts.filter fun name => !name.isEmpty && name != ['.'])
      (joinWith ['/'] parts ++ '/' :: t) = some (trimFront t) := by
  have step : ∀ {name : Text} {names : List Text} {u : Text}, '/' ∉ name →
      afterNames? (names.filter fun name => !name.isEmpty && name != ['.']) u = some (trimFront t) →
      afterNames? ((name :: names).filter fun name => !name.isEmpty && name != ['.'])
        (name ++ '/' :: u) = some (trimFront t) := by
    intro name names u free later
    by_cases empty : name = []
    · subst empty
      exact (afterNames?_congr (trimFront_slash u)).trans later
    · by_cases point : name = ['.']
      · subst point
        exact (afterNames?_congr (trimFront_point u)).trans later
      · rw [List.filter_cons_of_pos (by simp [empty, point]), afterNames?,
          trimFront_name empty free point, after?_append]
        exact later
  induction parts with
  | nil => exact congrArg some (trimFront_slash t)
  | cons name parts ih =>
    have later := ih fun p hp => free p (List.mem_cons_of_mem _ hp)
    cases parts with
    | nil => exact step (free name (by simp)) rfl
    | cons next parts =>
      have split : joinWith ['/'] (name :: next :: parts) ++ '/' :: t =
          name ++ '/' :: (joinWith ['/'] (next :: parts) ++ '/' :: t) := by
        rw [joinWith, List.append_assoc, List.append_assoc]
        rfl
      rw [split]
      exact step (free name (by simp)) later

theorem below?_under {folder : Text} (absolute : isAbsolute folder = true) {name : Text}
    {ns : List Text} (proper : ∀ n ∈ name :: ns, IsName n) :
    below? folder (under folder (name :: ns)) = some (spell (name :: ns)) := by
  obtain ⟨g, split, whole⟩ := slashed_cases folder
  have counted : names folder = (splitOn '/' g).filter fun name => !name.isEmpty && name != ['.'] := by
    unfold names
    rcases whole with rfl | rfl
    · rfl
    · rw [splitOn_append_cons, List.filter_append]
      simp [splitOn]
  have after := afterNames?_joinWith (splitOn '/' g) (fun _ hp => not_mem_of_mem_splitOn hp)
    (spell (name :: ns))
  rw [joinWith_splitOn, ← counted, trimFront_spell proper] at after
  unfold below?
  rw [if_pos (isAbsolute_under absolute proper), under_cons absolute proper, split, List.append_assoc,
    List.singleton_append, after, Option.map_some, trimBackwards_spell proper, List.reverse_reverse]

theorem parent?_spell {ns : List Text} {name : Text} (proper : ∀ n ∈ ns ++ [name], IsName n) :
    parent? (spell (ns ++ [name])) = some (spell ns) := by
  have front : ∀ n ∈ ns, IsName n := fun n hn => proper n (by simp [hn])
  obtain ⟨some, free, point, -⟩ := proper name (by simp)
  have passed : ∀ t, (name.reverse ++ t).dropWhile (· != '/') = t.dropWhile (· != '/') := by
    intro t
    refine List.dropWhile_append_of_pos fun d hd => bne_iff_ne.mpr ?_
    rintro rfl
    exact free (List.mem_reverse.mp hd)
  -- the text backwards is the last name, and then the others
  have cut : ∀ t, Path.parent? (name.reverse ++ t).reverse =
      .some (trimBackwards (t.dropWhile (· != '/'))).reverse := by
    intro t
    unfold parent?
    rw [List.reverse_reverse, trimBackwards_name some free point, ← passed t]
    split
    · rename_i e
      exact absurd (List.reverse_eq_nil_iff.mp (List.append_eq_nil_iff.mp e).1) some
    · rename_i e
      obtain ⟨c, cs, backwards⟩ := List.exists_cons_of_ne_nil (by simpa using some : name.reverse ≠ [])
      rw [backwards] at e
      exact absurd (List.mem_reverse.mp (by simp [backwards, (List.cons.inj e).1])) free
    · rfl
  by_cases alone : ns = []
  · subst alone
    show Path.parent? name = .some []
    simpa [trimBackwards] using cut []
  · rw [spell_concat alone]
    have here := cut ('/' :: (spell ns).reverse)
    rw [List.dropWhile_cons_of_neg (by simp)] at here
    obtain ⟨c, cs, backwards⟩ :=
      List.exists_cons_of_ne_nil (List.reverse_ne_nil_iff.mpr (spell_ne_nil alone front))
    have trimmed : trimBackwards ('/' :: (spell ns).reverse) = (spell ns).reverse := by
      rw [backwards, trimBackwards, ← backwards]
      · exact trimBackwards_spell front
      · exact nofun
    rw [trimmed] at here
    simpa using here

end Path

namespace Disk

open Quell.Path

theorem steps_append (disk : Disk) (t : Trail) (names later : List Text) :
    disk.steps t (names ++ later) = (disk.steps t names).bind fun u => disk.steps u later := by
  induction names generalizing t with
  | nil => rfl
  | cons name names ih =>
    rw [List.cons_append, steps, walk, walk]
    cases disk.entryAt t with
    | file c => rfl
    | link target => rfl
    | folder entries =>
      dsimp only
      split
      · exact ih t
      · split
        · exact ih t.tail
        · cases entries.lookup name with
          | none => rfl
          | some e =>
            cases e with
            | file c => exact ih _
            | folder es => exact ih _
            | link target => rfl

theorem Unlinked.entryAt_steps {disk : Disk} (unlinked : disk.Unlinked) {names : List Text}
    (proper : ∀ n ∈ names, IsName n) {t : Trail} (leads : disk.Leads t) :
    (disk.steps t names).toOption.map disk.entryAt = (disk.entryAt t).at? names := by
  induction names generalizing t with
  | nil => rfl
  | cons name names ih =>
    have later := @ih fun n hn => proper n (List.mem_cons_of_mem _ hn)
    obtain ⟨-, -, point, points⟩ := proper name (by simp)
    rw [steps, walk]
    cases here : disk.entryAt t with
    | file c => rfl
    | link target => rfl
    | folder entries =>
      dsimp only
      rw [if_neg point, if_neg points, Entry.at?]
      cases found : entries.lookup name with
      | none => rfl
      | some e =>
        have next : disk.Leads ((name, e) :: t) := .down leads here found
        cases e with
        | file c => exact later next
        | folder es => exact later next
        | link target => exact absurd next.kindAt (unlinked _ target)

theorem entryAt_steps_point (disk : Disk) (t : Trail) {names : List Text} (some : names ≠ []) :
    ((disk.steps t [['.']]).toOption.map disk.entryAt).bind (Entry.at? names) =
      (disk.entryAt t).at? names := by
  obtain ⟨name, names, rfl⟩ := List.exists_cons_of_ne_nil some
  rw [steps, walk]
  cases here : disk.entryAt t with
  | file c => rfl
  | link target => rfl
  | folder entries =>
    dsimp only
    rw [if_pos rfl, walk, Except.toOption, Option.map_some, Option.bind_some, here]

theorem Unlinked.entry?_under {disk : Disk} (unlinked : disk.Unlinked) {folder : Text}
    (absolute : isAbsolute folder = true) {names : List Text} (proper : ∀ n ∈ names, IsName n) :
    disk.entry? (under folder names) = (disk.entry? folder).bind (Entry.at? names) := by
  by_cases here : names = []
  · subst here
    show disk.entry? folder = (disk.entry? folder).bind some
    rw [Option.bind_fun_some]
  · have ends : stepsOf (under folder names) =
        (splitOn '/' folder).filter (!·.isEmpty) ++ names := by
      unfold stepsOf
      rw [steps_under absolute proper]
      obtain ⟨front, last, rfl⟩ := (List.eq_nil_or_concat names).resolve_left here
      rw [List.concat_eq_append] at proper ⊢
      obtain ⟨some, free, -, -⟩ := proper last (by simp)
      have closed : (under folder (front ++ [last])).getLast? ≠ Option.some '/' := by
        rw [under_concat absolute proper, List.getLast?_append_of_ne_nil _ some]
        exact fun e => free (List.mem_of_getLast? e)
      rw [if_neg closed, List.append_nil]
    unfold entry? find
    rw [if_pos absolute, if_pos (isAbsolute_under absolute proper), unlinked.follow_eq _ .root,
      unlinked.follow_eq _ .root, ends, steps_append]
    unfold stepsOf
    rw [steps_append]
    cases found : disk.steps [] ((splitOn '/' folder).filter (!·.isEmpty)) with
    | error e => rfl
    | ok t =>
      have leads : disk.Leads t := by
        rw [← unlinked.follow_eq 0 .root] at found
        exact leads_follow .root found
      refine (unlinked.entryAt_steps proper leads).trans ?_
      split
      · exact (entryAt_steps_point disk t here).symm
      · rfl

end Disk
end Quell
