import Mathlib.Data.List.Basic
import Quell.Disk
import Quell.Proofs.Text.Segments

/-!
Writing a file leaves every other file as it is.

A place on a disk is the list of names that lead to it from the root. Most files are known by their
places, but one that lies at several has a number (`FileId`). Writing the text of a file that is there
changes what this one file holds. The disk keeps its shape, so every path leads to the same place
before and after.
-/
namespace Quell

open Text

inductive FileId where
  | placed (names : List Text)
  | numbered (number : Nat)
  deriving DecidableEq

def Content.id (names : List Text) : Content → FileId
  | shared number => .numbered number
  | _ => .placed names

def Content.own? : Content → Option Text
  | text value => some value
  | _ => none

inductive Entry.Kind where
  | file (id : FileId)
  | folder
  | link (target : Text)
  deriving DecidableEq

namespace Entry

def kind (names : List Text) : Entry → Kind
  | file content => .file (content.id names)
  | folder _ => .folder
  | link target => .link target

def at? : List Text → Entry → Option Entry
  | [], e => some e
  | name :: rest, .folder entries => (entries.lookup name).bind (at? rest)
  | _ :: _, _ => none

theorem at?_concat (names : List Text) (name : Text) (e : Entry) :
    e.at? (names ++ [name]) = (e.at? names).bind (at? [name]) := by
  induction names generalizing e with
  | nil => rfl
  | cons n names ih =>
    cases e with
    | file c => rfl
    | link target => rfl
    | folder entries =>
      rw [List.cons_append, at?, at?]
      cases entries.lookup n with
      | none => rfl
      | some e => exact ih e

theorem lookup_replace (entries : List (Text × Entry)) (name other : Text) (e : Entry) :
    (entries.map fun (n, old) => if n = name then (n, e) else (n, old)).lookup other =
      if other = name then (entries.lookup name).map fun _ => e else entries.lookup other := by
  induction entries with
  | nil => simp
  | cons x entries ih =>
    obtain ⟨n, old⟩ := x
    rw [List.map_cons, List.lookup_cons]
    by_cases here : n = name
    · subst here
      by_cases same : other = n
      · simp [same]
      · have apart : (other == n) = false := beq_eq_false_iff_ne.mpr same
        rw [if_neg same] at ih ⊢
        simp only [if_true, List.lookup_cons, apart]
        exact ih
    · have aside : (name == n) = false := beq_eq_false_iff_ne.mpr (Ne.symm here)
      rw [if_neg here]
      by_cases same : other = n
      · subst same
        simp [here]
      · have apart : (other == n) = false := beq_eq_false_iff_ne.mpr same
        simp only [List.lookup_cons, apart, aside]
        exact ih

def fileAt (names : List Text) (e : Entry) : Option Content :=
  match e.at? names with
  | some (.file c) => some c
  | _ => none

/-- What lies where after a file with one place was replaced by another one. The place of the entry
does not matter. -/
theorem at?_put {new old : Content} {names : List Text} {e : Entry}
    (here : e.at? names = some (.file old)) (above : List Text)
    (same : new.id (above ++ names) = old.id (above ++ names)) (other : List Text) :
    ((put (.file new) names e).at? other).map (kind (above ++ other)) =
        (e.at? other).map (kind (above ++ other)) ∧
      fileAt other (put (.file new) names e) = if other = names then some new else fileAt other e := by
  induction names generalizing e other above with
  | nil =>
    cases here
    rw [List.append_nil] at same
    cases other with
    | nil => exact ⟨by simp [put, at?, kind, same], rfl⟩
    | cons n rest => exact ⟨rfl, rfl⟩
  | cons name names ih =>
    cases e with
    | file c => cases here
    | link target => cases here
    | folder entries =>
      obtain ⟨inner, found, below⟩ := Option.bind_eq_some_iff.mp here
      have made : put (.file new) (name :: names) (.folder entries) = .folder (entries.map
          fun (n, old) => if n = name then (n, put (.file new) names inner) else (n, old)) := by
        simp only [put, found]
      rw [made]
      cases other with
      | nil => exact ⟨rfl, rfl⟩
      | cons n rest =>
        simp only [fileAt, at?, lookup_replace]
        by_cases here : n = name
        · subst here
          rw [if_pos rfl, found]
          simpa [fileAt] using ih below (above ++ [n]) (by simpa using same) rest
        · rw [if_neg here]
          simp [here]

end Entry

namespace Disk

open Entry

def kindAt (disk : Disk) (names : List Text) : Option Kind := (disk.root.at? names).map (kind names)

def textAt (disk : Disk) : FileId → Option Text
  | .numbered number => disk.shared number
  | .placed names => (disk.root.fileAt names).bind Content.own?

def SameShape (disk disk' : Disk) : Prop := ∀ names, disk'.kindAt names = disk.kindAt names

theorem SameShape.symm {disk disk' : Disk} (same : disk.SameShape disk') : disk'.SameShape disk :=
  fun names => (same names).symm

theorem SameShape.trans {disk disk' disk'' : Disk} (first : disk.SameShape disk')
    (second : disk'.SameShape disk'') : disk.SameShape disk'' :=
  fun names => (second names).trans (first names)

inductive Leads (disk : Disk) : Trail → Prop
  | root : Leads disk []
  | down {t : Trail} {name : Text} {e : Entry} {entries : List (Text × Entry)} : Leads disk t →
      disk.entryAt t = .folder entries → entries.lookup name = some e → Leads disk ((name, e) :: t)

theorem names_cons (x : Text × Entry) (t : Trail) : Trail.names (x :: t) = t.names ++ [x.1] := by
  simp [Trail.names]

theorem Leads.at? {disk : Disk} {t : Trail} (leads : disk.Leads t) :
    disk.root.at? t.names = some (disk.entryAt t) := by
  induction leads with
  | root => rfl
  | down _ folder found ih =>
    rw [names_cons, at?_concat, ih, folder]
    simp [Entry.at?, found, entryAt]

theorem Leads.kindAt {disk : Disk} {t : Trail} (leads : disk.Leads t) :
    disk.kindAt t.names = some ((disk.entryAt t).kind t.names) := by
  unfold Disk.kindAt
  rw [leads.at?, Option.map_some]

theorem Leads.tail {disk : Disk} {t : Trail} (leads : disk.Leads t) : disk.Leads t.tail := by
  cases leads with
  | root => exact .root
  | down leads _ _ => exact leads

theorem Leads.folder_tail {disk : Disk} {t : Trail} (leads : disk.Leads t)
    {entries : List (Text × Entry)} (folder : disk.entryAt t = .folder entries) :
    ∃ entries, disk.entryAt t.tail = .folder entries := by
  cases leads with
  | root => exact ⟨entries, folder⟩
  | down _ above _ => exact ⟨_, above⟩

theorem leads_walk {disk : Disk} {jump : Trail → Text → List Text → Except DiskError Trail}
    (lands : ∀ t target rest u, disk.Leads t → jump t target rest = .ok u → disk.Leads u)
    {steps : List Text} {t u : Trail} (leads : disk.Leads t) (h : disk.walk jump t steps = .ok u) :
    disk.Leads u := by
  induction steps generalizing t with
  | nil =>
    cases h
    exact leads
  | cons name rest ih =>
    rw [walk] at h
    split at h
    · rename_i entries folder
      split at h
      · exact ih leads h
      · split at h
        · exact ih leads.tail h
        · split at h
          · exact lands _ _ _ _ leads h
          · rename_i e _ found
            exact ih (.down leads folder found) h
          · cases h
    · cases h

theorem leads_follow {disk : Disk} {links : Nat} {steps : List Text} {t u : Trail}
    (leads : disk.Leads t) (h : disk.follow links t steps = .ok u) : disk.Leads u := by
  induction links generalizing t u steps with
  | zero =>
    refine leads_walk (fun t target rest u leads h => ?_) leads h
    cases h
  | succ links ih =>
    refine leads_walk (fun t target rest u leads h => ?_) leads h
    split at h
    · cases h
    · refine ih ?_ h
      split
      · exact .root
      · exact leads

theorem leads_find {disk : Disk} {path : Text} {t : Trail} (h : disk.find path = .ok t) :
    disk.Leads t := by
  unfold find at h
  split at h
  · exact leads_follow .root h
  · cases h

theorem names_tail {t t' : Trail} (names : t'.names = t.names) :
    Trail.names t'.tail = Trail.names t.tail := by
  cases t with
  | nil =>
    cases t' with
    | nil => rfl
    | cons x t' => simp [Trail.names] at names
  | cons x t =>
    cases t' with
    | nil => simp [Trail.names] at names
    | cons x' t' =>
      rw [names_cons, names_cons] at names
      exact (List.append_inj' names rfl).1

theorem walk_sameShape {disk disk' : Disk} (same : disk.SameShape disk')
    {jump jump' : Trail → Text → List Text → Except DiskError Trail}
    (lands : ∀ t t' target rest, disk.Leads t → disk'.Leads t' → t'.names = t.names →
      (jump' t' target rest).map Trail.names = (jump t target rest).map Trail.names)
    {steps : List Text} {t t' : Trail} (leads : disk.Leads t) (leads' : disk'.Leads t')
    (names : t'.names = t.names) :
    (disk'.walk jump' t' steps).map Trail.names = (disk.walk jump t steps).map Trail.names := by
  induction steps generalizing t t' with
  | nil => exact congrArg Except.ok names
  | cons name rest ih =>
    have kind := same t.names
    rw [leads.kindAt, ← names, leads'.kindAt] at kind
    rw [walk, walk]
    cases here : disk.entryAt t with
    | file c =>
      cases here' : disk'.entryAt t' with
      | file c' => rfl
      | link target' => rfl
      | folder entries' =>
        rw [here, here'] at kind
        cases kind
    | link target =>
      cases here' : disk'.entryAt t' with
      | file c' => rfl
      | link target' => rfl
      | folder entries' =>
        rw [here, here'] at kind
        cases kind
    | folder entries =>
      cases here' : disk'.entryAt t' with
      | file c' =>
        rw [here, here'] at kind
        cases kind
      | link target' =>
        rw [here, here'] at kind
        cases kind
      | folder entries' =>
        dsimp only
        split
        · exact ih leads leads' names
        · split
          · exact ih leads.tail leads'.tail (names_tail names)
          · have below := same (t.names ++ [name])
            unfold Disk.kindAt at below
            rw [at?_concat, at?_concat, leads.at?, ← names, leads'.at?, here, here'] at below
            simp only [Option.bind_some, Entry.at?, Option.bind_fun_some] at below
            have step : ∀ {e e'}, entries.lookup name = some e → entries'.lookup name = some e' →
                (disk'.walk jump' ((name, e') :: t') rest).map Trail.names =
                  (disk.walk jump ((name, e) :: t) rest).map Trail.names := by
              intro e e' found found'
              refine ih (.down leads here found) (.down leads' here' found') ?_
              rw [names_cons, names_cons, names]
            cases found : entries.lookup name with
            | none =>
              rw [found] at below
              rw [Option.map_eq_none_iff.mp below]
            | some e =>
              rw [found] at below
              obtain ⟨e', found', alike⟩ := Option.map_eq_some_iff.mp below
              rw [found']
              cases e with
              | file c =>
                cases e' with
                | file c' => exact step found found'
                | folder es => cases alike
                | link target => cases alike
              | folder es =>
                cases e' with
                | file c' => cases alike
                | folder es' => exact step found found'
                | link target => cases alike
              | link target =>
                cases e' with
                | file c' => cases alike
                | folder es' => cases alike
                | link target' =>
                  cases alike
                  exact lands _ _ _ _ leads leads' names

theorem follow_sameShape {disk disk' : Disk} (same : disk.SameShape disk') (links : Nat)
    {steps : List Text} {t t' : Trail} (leads : disk.Leads t) (leads' : disk'.Leads t')
    (names : t'.names = t.names) :
    (disk'.follow links t' steps).map Trail.names = (disk.follow links t steps).map Trail.names := by
  induction links generalizing t t' steps with
  | zero => exact walk_sameShape same (fun _ _ _ _ _ _ _ => rfl) leads leads' names
  | succ links ih =>
    refine walk_sameShape same (fun t t' target rest leads leads' names => ?_) leads leads' names
    split
    · rfl
    · split
      · exact ih .root .root rfl
      · exact ih leads leads' names

theorem find_sameShape {disk disk' : Disk} (same : disk.SameShape disk') (path : Text) :
    (disk'.find path).map Trail.names = (disk.find path).map Trail.names := by
  unfold find
  split
  · exact follow_sameShape same maxLinks .root .root rfl
  · rfl

def fileId? (disk : Disk) (path : Text) : Option FileId :=
  match disk.find path with
  | .error _ => none
  | .ok t =>
    match disk.kindAt t.names with
    | some (.file id) => some id
    | _ => none

theorem fileId?_eq_some {disk : Disk} {path : Text} {id : FileId} : disk.fileId? path = some id ↔
    ∃ t, disk.find path = .ok t ∧ disk.kindAt t.names = some (.file id) := by
  unfold fileId?
  cases disk.find path with
  | error e => exact ⟨nofun, nofun⟩
  | ok t =>
    dsimp only
    constructor
    · intro h
      split at h
      · rename_i file
        cases h
        exact ⟨t, rfl, file⟩
      · cases h
    · rintro ⟨_, ⟨⟩, file⟩
      rw [file]

theorem SameShape.fileId?_eq {disk disk' : Disk} (same : disk.SameShape disk') (path : Text) :
    disk'.fileId? path = disk.fileId? path := by
  have place := find_sameShape same path
  unfold fileId?
  cases found : disk.find path with
  | error e =>
    rw [found] at place
    cases found' : disk'.find path with
    | error e' => rfl
    | ok t' =>
      rw [found'] at place
      cases place
  | ok t =>
    rw [found] at place
    cases found' : disk'.find path with
    | error e' =>
      rw [found'] at place
      cases place
    | ok t' =>
      rw [found'] at place
      have names : t'.names = t.names := Except.ok.inj place
      dsimp only
      rw [names, same]

theorem exists_content {disk : Disk} {path : Text} {id : FileId} (h : disk.fileId? path = some id) :
    ∃ t c, disk.find path = .ok t ∧ disk.entryAt t = .file c ∧ c.id t.names = id ∧
      disk.root.fileAt t.names = some c := by
  obtain ⟨t, found, file⟩ := fileId?_eq_some.mp h
  have leads := leads_find found
  rw [leads.kindAt] at file
  cases here : disk.entryAt t with
  | folder es =>
    rw [here] at file
    cases file
  | link target =>
    rw [here] at file
    cases file
  | file c =>
    rw [here] at file
    cases file
    refine ⟨t, c, found, here, rfl, ?_⟩
    unfold fileAt
    rw [leads.at?, here]

theorem textAt_id {disk : Disk} {names : List Text} {c : Content}
    (here : disk.root.fileAt names = some c) : disk.textAt (c.id names) = disk.textOf c := by
  cases c with
  | shared number => rfl
  | text value => exact congrArg (Option.bind · Content.own?) here
  | binary => exact congrArg (Option.bind · Content.own?) here

theorem read_eq_ok {disk : Disk} {path : Text} {id : FileId} (h : disk.fileId? path = some id)
    {text : Text} : disk.read path = .ok text ↔ disk.textAt id = some text := by
  obtain ⟨t, c, found, file, rfl, here⟩ := exists_content h
  rw [textAt_id here]
  unfold read
  rw [found]
  dsimp only
  rw [file]
  dsimp only
  cases disk.textOf c with
  | none => exact ⟨nofun, nofun⟩
  | some value => simp

theorem exists_fileId_of_read {disk : Disk} {path text : Text} (h : disk.read path = .ok text) :
    ∃ id, disk.fileId? path = some id := by
  unfold read at h
  cases found : disk.find path with
  | error e =>
    rw [found] at h
    cases h
  | ok t =>
    rw [found] at h
    dsimp only at h
    cases file : disk.entryAt t with
    | folder entries =>
      rw [file] at h
      cases h
    | link target =>
      rw [file] at h
      cases h
    | file c =>
      refine ⟨c.id t.names, fileId?_eq_some.mpr ⟨t, found, ?_⟩⟩
      rw [(leads_find found).kindAt, file]
      rfl

theorem exists_write {disk : Disk} {path : Text} {id : FileId} (h : disk.fileId? path = some id)
    (text : Text) : ∃ disk', disk.write path text = .ok disk' ∧ disk.SameShape disk' ∧
      ∀ other, disk'.textAt other = if other = id then some text else disk.textAt other := by
  obtain ⟨t, c, found, file, rfl, -⟩ := exists_content h
  have here := (leads_find found).at?
  rw [file] at here
  refine ⟨disk.fill t.names text c, ?_, ?_⟩
  · unfold Disk.write
    rw [found]
    dsimp only
    rw [file]
  have alone : c.id t.names = .placed t.names → disk.SameShape (disk.put t.names (.file (.text text))) ∧
      ∀ other, (disk.put t.names (.file (.text text))).textAt other =
        if other = .placed t.names then some text else disk.textAt other := by
    intro placed
    have same : (Content.text text).id ([] ++ t.names) = c.id ([] ++ t.names) := placed.symm
    have put := at?_put here [] same
    refine ⟨fun names => (put names).1, fun other => ?_⟩
    cases other with
    | numbered number => simp [textAt, Disk.put]
    | placed names =>
      have text := congrArg (Option.bind · Content.own?) (put names).2
      refine text.trans ?_
      by_cases this : names = t.names
      · simp [this, Content.own?]
      · simp [this, textAt]
  cases c with
  | text value => exact alone rfl
  | binary => exact alone rfl
  | shared number =>
    refine ⟨fun names => rfl, fun other => ?_⟩
    cases other with
    | placed names => rfl
    | numbered m => simp [Content.id, textAt, fill]

theorem canonical_eq_of_placed {disk : Disk} {path path' : Text} {names : List Text}
    (h : disk.fileId? path = some (.placed names)) (h' : disk.fileId? path' = some (.placed names)) :
    disk.canonical path' = disk.canonical path := by
  have ends : ∀ {path}, disk.fileId? path = some (.placed names) →
      ∃ t, disk.find path = .ok t ∧ Trail.names t = names := by
    intro path h
    obtain ⟨t, c, found, -, id, -⟩ := exists_content h
    refine ⟨t, found, ?_⟩
    cases c <;> cases id <;> rfl
  obtain ⟨t, found, rfl⟩ := ends h
  obtain ⟨t', found', same⟩ := ends h'
  have path_eq : t'.path = t.path := by
    unfold Trail.path
    rw [same]
  unfold canonical
  rw [found, found']
  exact path_eq

def Unlinked (disk : Disk) : Prop := ∀ names target, disk.kindAt names ≠ some (.link target)

def Plain (disk : Disk) : Prop :=
  ∀ names, (∀ target, disk.kindAt names ≠ some (.link target)) ∧
    ∀ number, disk.kindAt names ≠ some (.file (.numbered number))

theorem Plain.unlinked {disk : Disk} (plain : disk.Plain) : disk.Unlinked := fun names => (plain names).1

theorem Plain.placed {disk : Disk} (plain : disk.Plain) {path : Text} {id : FileId}
    (h : disk.fileId? path = some id) : ∃ names, id = .placed names := by
  obtain ⟨t, -, file⟩ := fileId?_eq_some.mp h
  cases id with
  | placed names => exact ⟨names, rfl⟩
  | numbered number => exact absurd file ((plain t.names).2 number)

theorem Unlinked.walk_eq {disk : Disk} (unlinked : disk.Unlinked)
    (jump jump' : Trail → Text → List Text → Except DiskError Trail) {t : Trail}
    (leads : disk.Leads t) (steps : List Text) :
    disk.walk jump t steps = disk.walk jump' t steps := by
  induction steps generalizing t with
  | nil => rfl
  | cons name rest ih =>
    rw [walk, walk]
    cases here : disk.entryAt t with
    | file c => rfl
    | link target => rfl
    | folder entries =>
      dsimp only
      split
      · exact ih leads
      · split
        · exact ih leads.tail
        · cases found : entries.lookup name with
          | none => rfl
          | some e =>
            have next : disk.Leads ((name, e) :: t) := .down leads here found
            cases e with
            | file c => exact ih next
            | folder es => exact ih next
            | link target => exact absurd next.kindAt (unlinked _ target)

abbrev steps (disk : Disk) : Trail → List Text → Except DiskError Trail :=
  disk.walk fun _ _ _ => .error .looped

theorem Unlinked.follow_eq {disk : Disk} (unlinked : disk.Unlinked) (links : Nat) {t : Trail}
    (leads : disk.Leads t) (names : List Text) :
    disk.follow links t names = disk.steps t names := by
  cases links with
  | zero => rfl
  | succ links => exact unlinked.walk_eq _ _ leads names

theorem walk_last {disk : Disk} {steps : List Text} {t u : Trail} {c : Content}
    (leads : disk.Leads t) (go : steps ≠ []) (h : disk.steps t steps = .ok u)
    (file : disk.entryAt u = .file c) :
    ∃ name, steps.getLast? = some name ∧ u.names.getLast? = some name ∧ name ≠ ['.'] ∧
      name ≠ ['.', '.'] := by
  induction steps generalizing t with
  | nil => exact absurd rfl go
  | cons name rest ih =>
    unfold Disk.steps at h
    rw [walk] at h
    split at h
    · rename_i entries folder
      split at h
      · cases rest with
        | nil =>
          cases h
          rw [folder] at file
          cases file
        | cons next rest =>
          rw [List.getLast?_cons_cons]
          exact ih leads (by simp) h
      · rename_i here
        split at h
        · cases rest with
          | nil =>
            cases h
            obtain ⟨_, above⟩ := leads.folder_tail folder
            rw [above] at file
            cases file
          | cons next rest =>
            rw [List.getLast?_cons_cons]
            exact ih leads.tail (by simp) h
        · rename_i up
          split at h
          · cases h
          · rename_i e _ found
            cases rest with
            | nil =>
              cases h
              refine ⟨name, rfl, ?_, here, up⟩
              rw [names_cons]
              simp
            | cons next rest =>
              rw [List.getLast?_cons_cons]
              exact ih (.down leads folder found) (by simp) h
          · cases h
    · cases h

theorem stepsOf_ne_nil {path : Text} (go : path ≠ []) : stepsOf path ≠ [] := by
  induction path with
  | nil => exact absurd rfl go
  | cons c cs ih =>
    by_cases slash : c = '/'
    · subst slash
      cases cs with
      | nil => decide
      | cons d ds =>
        have same : stepsOf ('/' :: d :: ds) = stepsOf (d :: ds) := by
          unfold stepsOf
          rw [splitOn_cons_self, List.getLast?_cons_cons]
          rfl
        rw [same]
        exact ih (by simp)
    · obtain ⟨p, ps, -, parts⟩ := splitOn_cons_ne slash cs
      unfold stepsOf
      rw [parts]
      simp

theorem fileName_of_steps {path name : Text} (last : (stepsOf path).getLast? = some name)
    (here : name ≠ ['.']) (up : name ≠ ['.', '.']) : Path.fileName? path = some name := by
  have plain : (splitOn '/' path |>.filter (!·.isEmpty)).getLast? = some name := by
    unfold stepsOf at last
    split at last
    · rw [List.getLast?_concat] at last
      exact absurd (Option.some.inj last).symm here
    · rwa [List.append_nil] at last
  obtain ⟨front, parts⟩ := List.getLast?_eq_some_iff.mp plain
  have names : Path.names path = front.filter (· != ['.']) ++ [name] := by
    have split : Path.names path = (splitOn '/' path |>.filter (!·.isEmpty)).filter (· != ['.']) := by
      unfold Path.names
      rw [List.filter_filter]
      congr 1
      funext x
      rw [Bool.and_comm]
    rw [split, parts, List.filter_append]
    simp [here]
  unfold Path.fileName?
  rw [names, List.getLast?_concat]
  simp [up]

theorem Unlinked.fileName_eq {disk : Disk} (unlinked : disk.Unlinked) {path path' : Text}
    {names : List Text} (h : disk.fileId? path = some (.placed names))
    (h' : disk.fileId? path' = some (.placed names)) :
    Path.fileName? path' = Path.fileName? path := by
  have ends : ∀ {path}, disk.fileId? path = some (.placed names) →
      Path.fileName? path = names.getLast? := by
    intro path h
    obtain ⟨t, c, found, file, id, -⟩ := exists_content h
    have place : t.names = names := by cases c <;> cases id <;> rfl
    unfold find at found
    split at found
    · rename_i absolute
      have go : path ≠ [] := by
        rintro rfl
        cases absolute
      rw [unlinked.follow_eq maxLinks .root] at found
      obtain ⟨name, last, ends, here, up⟩ := walk_last .root (stepsOf_ne_nil go) found file
      rw [← place, ends, fileName_of_steps last here up]
    · cases found
  rw [ends h, ends h']

end Disk
end Quell
