import Mathlib.Data.List.DropRight
import Quell.Proofs.Config
import Quell.Proofs.Print.Stops

/-!
A page that grows never spells its source.
-/
namespace Quell

open Text Grammar

namespace Text

/-- The text without the spaces and tabs at its end. -/
def solid (t : Text) : Text := t.rdropWhile Page.isSpaceOrTab

theorem solid_split (t : Text) : ∃ w, t = solid t ++ w ∧ Run w := by
  refine ⟨t.rtakeWhile Page.isSpaceOrTab, List.rdropWhile_append_rtakeWhile.symm, fun c mem => ?_⟩
  exact List.mem_takeWhile_imp (List.mem_reverse.mp mem)

theorem solid_starts (t : Text) : solid t <+: t := List.rdropWhile_prefix ..

theorem solid_solid (t : Text) : solid (solid t) = solid t := List.rdropWhile_idempotent ..

theorem solid_eq_nil {t : Text} : solid t = [] ↔ Run t := List.rdropWhile_eq_nil_iff

theorem solid_append (a b : Text) :
    solid (a ++ b) = if solid b = [] then solid a else a ++ solid b := by
  unfold solid List.rdropWhile
  rw [List.reverse_append, List.dropWhile_append]
  cases (b.reverse.dropWhile Page.isSpaceOrTab) with
  | nil => simp
  | cons c cs => simp

theorem solid_append_of_run {a b : Text} (run : Run b) : solid (a ++ b) = solid a := by
  rw [solid_append, if_pos (solid_eq_nil.mpr run)]

theorem solid_append_of_ne {a b : Text} (ne : solid b ≠ []) : solid (a ++ b) = a ++ solid b := by
  rw [solid_append, if_neg ne]

theorem solid_cons {c : Char} (ink : Page.isSpaceOrTab c = false) (t : Text) :
    solid (c :: t) = c :: solid t := by
  have first : solid [c] = [c] := by simp [solid, List.rdropWhile, ink]
  have whole := solid_append [c] t
  rw [first, List.singleton_append] at whole
  rw [whole]
  split
  · rename_i empty
    rw [empty]
  · rfl

theorem solid_append_cons {c : Char} (ink : Page.isSpaceOrTab c = false) (a t : Text) :
    solid (a ++ c :: t) = a ++ c :: solid t := by
  rw [solid_append_of_ne, solid_cons ink]
  rw [solid_cons ink]
  exact nofun

theorem ink_of_isLineEnd {c : Char} (h : isLineEnd c = true) : Page.isSpaceOrTab c = false := by
  cases blank : Page.isSpaceOrTab c with
  | false => rfl
  | true =>
    rcases (by simpa [Page.isSpaceOrTab] using blank : c = ' ' ∨ c = '\t') with rfl | rfl <;>
      exact absurd h (by decide)

theorem solid_grows (a b : Text) : solid a <+: solid (a ++ b) := by
  rw [solid_append]
  split
  · exact List.prefix_rfl
  · exact (solid_starts a).trans (List.prefix_append ..)

/-- If what was written, less the spaces and tabs at its end, begins `whole`, it reaches farther than
what was read of it, by `g` characters at least. -/
def Ahead (g : Nat) (whole used out : Text) : Prop :=
  solid out <+: whole → (solid used).length + g ≤ (solid out).length

variable {g : Nat} {whole used out x old new : Text}

theorem Ahead.start : Ahead 0 whole [] [] := fun _ => Nat.le_refl _

theorem Ahead.lower (h : Ahead 1 whole used out) (le : g ≤ 1) : Ahead g whole used out := by
  intro fits
  have := h fits
  omega

theorem Ahead.anyhow (h : Ahead g whole used out) : Ahead 0 whole used out := fun fits =>
  Nat.le_trans (Nat.le_add_right _ _) (h fits)

theorem Ahead.congr {out' : Text} (h : Ahead g whole used out) (same : solid out' = solid out) :
    Ahead g whole used out' := by
  unfold Ahead
  rw [same]
  exact h

theorem Ahead.length_le (h : Ahead g whole used out) (le : g ≤ 1) {c : Char}
    (ink : Page.isSpaceOrTab c = false) (read : used ++ [c] <+: whole) (written : out ++ [c] <+: whole) :
    used.length + g ≤ out.length := by
  have used_fits : used <+: whole := (List.prefix_append ..).trans read
  have out_fits : out <+: whole := (List.prefix_append ..).trans written
  have ahead := h ((solid_starts out).trans out_fits)
  have short := (solid_starts out).length_le
  rcases Nat.lt_trichotomy out.length used.length with lt | eq | gt
  · -- The character that comes next in what was written stands in what was read.
    obtain ⟨rest, rfl⟩ := List.prefix_of_prefix_length_le written used_fits (by
      rw [List.length_append]
      exact lt)
    have reaches : solid (out ++ [c] ++ rest) = out ++ c :: solid rest := by
      rw [List.append_assoc, List.singleton_append, solid_append_of_ne, solid_cons ink]
      rw [solid_cons ink]
      exact nofun
    rw [reaches] at ahead
    simp only [List.length_append, List.length_cons] at ahead
    omega
  · rw [(List.prefix_of_prefix_length_le out_fits used_fits (Nat.le_of_eq eq)).eq_of_length eq] at ahead ⊢
    omega
  · omega

/-- Both read and written. -/
theorem Ahead.copy (h : Ahead g whole used out) (le : g ≤ 1) (read : used ++ x <+: whole) :
    Ahead g whole (used ++ x) (out ++ x) := by
  rcases run_or_ink x with run | ⟨r, c, y, rfl, run, ink⟩
  · unfold Ahead
    rw [solid_append_of_run run, solid_append_of_run run]
    exact h
  · intro written
    have tail : ∀ t : Text, solid (t ++ (r ++ c :: y)) = t ++ r ++ [c] ++ solid y := by
      intro t
      rw [← List.append_assoc, solid_append_of_ne, solid_cons ink]
      · simp
      · rw [solid_cons ink]
        exact nofun
    rw [tail] at written
    have behind : Ahead g whole (used ++ r) (out ++ r) := by
      unfold Ahead
      rw [solid_append_of_run run, solid_append_of_run run]
      exact h
    have long := behind.length_le le ink
      (List.IsPrefix.trans ⟨y, by simp⟩ read) ((List.prefix_append ..).trans written)
    rw [tail, tail]
    simp only [List.length_append, List.length_singleton] at long ⊢
    omega

/-- Written but not read. -/
theorem Ahead.put (h : Ahead g whole used out) (x : Text) : Ahead g whole used (out ++ x) := by
  intro fits
  have grows := solid_grows out x
  exact Nat.le_trans (h (grows.trans fits)) grows.length_le

theorem Ahead.put_ink (h : Ahead 0 whole used out) (ink : ¬ Run x) : Ahead 1 whole used (out ++ x) := by
  intro fits
  have ne : solid x ≠ [] := fun empty => ink (solid_eq_nil.mp empty)
  have before := h ((solid_grows out x).trans fits)
  have short := (solid_starts out).length_le
  have more := List.length_pos_of_ne_nil ne
  rw [solid_append_of_ne ne, List.length_append]
  omega

/-- A text is read and another one written that begins like it: what was written is ahead from there
on, or the new text stands in the old one and `whole` goes on like the old one. -/
theorem Ahead.replace (h : Ahead g whole used out) (le : g ≤ 1) {c : Char} {y z : Text}
    (ink : Page.isSpaceOrTab c = false) (read : used ++ c :: y <+: whole)
    (firm : solid (c :: z) = c :: z) (written : solid (out ++ c :: z) <+: whole) :
    (solid (used ++ c :: y)).length + 1 ≤ (solid (out ++ c :: z)).length ∨
      ∃ d v, solid (c :: y) = d ++ c :: z ++ v ∧ ∀ e ∈ v.head?, out ++ c :: z ++ [e] <+: whole := by
  have spelled : solid (out ++ c :: z) = out ++ c :: z := by
    rw [solid_append_of_ne (by rw [firm]; exact nofun), firm]
  have solid_read : solid (used ++ c :: y) = used ++ solid (c :: y) := by
    rw [solid_append_of_ne (by rw [solid_cons ink]; exact nofun)]
  rw [spelled] at written ⊢
  rw [solid_read]
  have long := h.length_le le ink (List.IsPrefix.trans ⟨y, by simp⟩ read)
    (List.IsPrefix.trans ⟨z, by simp⟩ written)
  by_cases far : used.length + (solid (c :: y)).length + 1 ≤ out.length + (c :: z).length
  · refine .inl ?_
    simp only [List.length_append] at far ⊢
    exact far
  · refine .inr ?_
    have used_fits : used <+: whole := (List.prefix_append ..).trans read
    obtain ⟨d, rfl⟩ := List.prefix_of_prefix_length_le used_fits
      ((List.prefix_append ..).trans written) (Nat.le_trans (Nat.le_add_right _ _) long)
    have inside : used ++ solid (c :: y) <+: whole :=
      ((List.prefix_append_right_inj _).mpr (solid_starts _)).trans read
    obtain ⟨v, whole_old⟩ := List.prefix_of_prefix_length_le written inside (by
      simp only [List.length_append] at far ⊢
      omega)
    have old_eq : solid (c :: y) = d ++ c :: z ++ v := by
      rw [List.append_assoc, List.append_assoc] at whole_old
      rw [← List.append_cancel_left whole_old, List.append_assoc]
    refine ⟨d, v, old_eq, fun e first => ?_⟩
    obtain ⟨v', rfl⟩ := List.head?_eq_some_iff.mp first
    refine List.IsPrefix.trans ⟨v', ?_⟩ inside
    rw [old_eq]
    simp

end Text

namespace Sheet

variable {source : Text} {g : Nat} {sheet : Sheet}

def Ahead (g : Nat) (source : Text) (sheet : Sheet) : Prop :=
  ∃ used rest, source = used ++ rest ∧ bytes used = sheet.pos ∧ Text.Ahead g source used sheet.text

/-- A line comment that is spent was written as a part of itself: the source goes on with its other
part where the sheet goes on with the end of the line. -/
def Torn (source : Text) (sheet : Sheet) : Prop :=
  ∃ used rest, source = used ++ rest ∧ bytes used = sheet.pos ∧
    (∀ c ∈ rest.head?, isLineEnd c = true) ∧
    (solid sheet.text <+: source → (solid used).length + 1 ≤ (solid sheet.text).length ∨
      ∃ e, isLineEnd e = false ∧ sheet.text ++ [e] <+: source)

theorem Ahead.start (source : Text) : Ahead 0 source {} := ⟨[], source, rfl, rfl, Text.Ahead.start⟩

theorem Ahead.lower (h : Ahead 1 source sheet) (le : g ≤ 1) : Ahead g source sheet := by
  obtain ⟨used, rest, split, pos, ahead⟩ := h
  exact ⟨used, rest, split, pos, ahead.lower le⟩

theorem Ahead.congr {s : Sheet} (h : Ahead g source sheet) (pos : s.pos = sheet.pos)
    (same : solid s.text = solid sheet.text) : Ahead g source s := by
  obtain ⟨used, rest, split, spent, ahead⟩ := h
  exact ⟨used, rest, split, spent.trans pos.symm, ahead.congr same⟩

theorem Ahead.add (h : Ahead g source sheet) (t : Text) : Ahead g source (sheet.add t) := by
  obtain ⟨used, rest, split, pos, ahead⟩ := h
  exact ⟨used, rest, split, pos, ahead.put t⟩

theorem Ahead.add_ink (h : Ahead g source sheet) {t : Text} (ink : ¬ Run t) :
    Ahead 1 source (sheet.add t) := by
  obtain ⟨used, rest, split, pos, ahead⟩ := h
  exact ⟨used, rest, split, pos, (ahead.anyhow).put_ink ink⟩

theorem Ahead.trimEnd (h : Ahead g source sheet) : Ahead g source sheet.trimEnd :=
  h.congr rfl (solid_solid sheet.text)

theorem Ahead.text_ne (h : Ahead 1 source sheet) (full : sheet.pos = bytes source) :
    sheet.text ≠ source := by
  obtain ⟨used, rest, split, pos, ahead⟩ := h
  obtain rfl : rest = [] := by
    apply bytes_eq_zero.mp
    have total := congrArg bytes split
    rw [bytes_append] at total
    omega
  rw [List.append_nil] at split
  subst split
  intro same
  have := ahead (same ▸ solid_starts sheet.text)
  rw [same] at this
  omega

theorem Torn.text_ne (h : Torn source sheet) (full : sheet.pos = bytes source) :
    sheet.text ≠ source := by
  obtain ⟨used, rest, split, pos, -, torn⟩ := h
  obtain rfl : rest = [] := by
    apply bytes_eq_zero.mp
    have total := congrArg bytes split
    rw [bytes_append] at total
    omega
  rw [List.append_nil] at split
  subst split
  intro same
  rcases torn (same ▸ solid_starts sheet.text) with ahead | ⟨e, -, more⟩
  · rw [same] at ahead
    omega
  · have := more.length_le
    rw [same, List.length_append, List.length_singleton] at this
    omega

end Sheet

namespace Revision

def Tight (source : Text) (r : Revision) : Prop :=
  ∀ old, slice? r.lo r.hi source = some old → ∀ d v, solid old ≠ d ++ r.text ++ v

/-- What a comment has become: something else, or a part of itself with more of the comment behind
it, and then its line ends where it ends. -/
structure Renewed (source : Text) (r : Revision) : Prop where
  old : ∃ y, slice? r.lo r.hi source = some ('/' :: y)
  new : ∃ z, r.text = '/' :: z
  firm : solid r.text = r.text
  part : ∀ old d v, slice? r.lo r.hi source = some old → solid old = d ++ r.text ++ v →
    ∃ e ∈ v.head?, isLineEnd e = false
  ends : r.Tight source ∨ ∀ a b, source = a ++ b → bytes a = r.hi → ∀ c ∈ b.head?, isLineEnd c = true

theorem Renewed.lt {source : Text} {r : Revision} (word : r.Renewed source) : r.lo < r.hi := by
  obtain ⟨y, found⟩ := word.old
  have long := slice?_bytes found
  have := bytes_pos (t := '/' :: y) nofun
  omega

end Revision

namespace Press

variable {press : Press} {sheet s : Sheet} {g target : Nat} {r : Revision}

def Passes (press : Press) (g : Nat) (sheet : Sheet) : Prop :=
  sheet.Ahead g press.source ∨ sheet.Torn press.source ∧
    ∃ r ∈ press.revisions, r.hi = sheet.pos ∧ ¬ r.Tight press.source

theorem Passes.lower (h : press.Passes 1 sheet) (le : g ≤ 1) : press.Passes g sheet :=
  h.imp_left fun ahead => ahead.lower le

theorem copySheet_eq_ok (h : press.copySheet sheet target = .ok s) :
    ∃ x, slice? sheet.pos target press.source = some x ∧ s = ⟨sheet.text ++ x, target⟩ := by
  obtain ⟨x, found, made⟩ := bind_eq_ok h
  cases made
  exact ⟨x, slice_eq_ok found, rfl⟩

theorem copySheet_ahead (ahead : sheet.Ahead g press.source) (le : g ≤ 1)
    (h : press.copySheet sheet target = .ok s) : s.Ahead g press.source := by
  obtain ⟨used, rest, split, pos, ahead⟩ := ahead
  obtain ⟨x, found, rfl⟩ := copySheet_eq_ok h
  obtain ⟨a, b, split', start, stop⟩ := slice?_eq_some.mp found
  obtain ⟨rfl, rfl⟩ := append_inj_bytes (split.symm.trans (split'.trans (List.append_assoc ..)))
    (pos.trans start.symm)
  refine ⟨used ++ x, b, split', ?_, ahead.copy le ⟨b, split'.symm⟩⟩
  rw [bytes_append, start]
  exact stop

/-- The rest of a line behind a torn comment: there the source and the sheet differ, or the sheet is
ahead. -/
theorem copySheet_torn (torn : sheet.Torn press.source) (lt : sheet.pos < target)
    (h : press.copySheet sheet target = .ok s) : s.Ahead 1 press.source := by
  obtain ⟨used, rest, split, pos, ends, torn⟩ := torn
  obtain ⟨x, found, rfl⟩ := copySheet_eq_ok h
  obtain ⟨a, b, split', start, stop⟩ := slice?_eq_some.mp found
  obtain ⟨rfl, rfl⟩ := append_inj_bytes (split.symm.trans (split'.trans (List.append_assoc ..)))
    (pos.trans start.symm)
  cases x with
  | nil =>
    rw [bytes_nil] at stop
    omega
  | cons c x =>
    have breaks : isLineEnd c = true := ends c (by simp)
    have ink := ink_of_isLineEnd breaks
    refine ⟨used ++ c :: x, b, split', by rw [bytes_append, start]; exact stop, fun fits => ?_⟩
    rw [solid_append_cons ink] at fits
    have here : sheet.text ++ [c] <+: press.source :=
      List.IsPrefix.trans ⟨solid x, by simp⟩ fits
    have before : solid sheet.text <+: press.source :=
      (solid_starts _).trans ((List.prefix_append ..).trans here)
    rcases torn before with ahead | ⟨e, flat, there⟩
    · have both : Text.Ahead 1 press.source used sheet.text := fun _ => ahead
      refine both.copy (Nat.le_refl 1) (x := c :: x) ⟨b, split'.symm⟩ ?_
      rwa [solid_append_cons ink]
    · have same := List.prefix_of_prefix_length_le here there (by simp)
      have equal := same.eq_of_length (by simp)
      have : c = e := by simpa using equal
      rw [this, flat] at breaks
      cases breaks

theorem put_revision (word : r.Renewed press.source) (ahead : sheet.Ahead g press.source) (le : g ≤ 1)
    (here : sheet.pos = r.lo) :
    Sheet.Ahead 1 press.source ⟨sheet.text ++ r.text, r.hi⟩ ∨
      Sheet.Torn press.source ⟨sheet.text ++ r.text, r.hi⟩ ∧ ¬ r.Tight press.source := by
  obtain ⟨used, rest, split, pos, ahead⟩ := ahead
  obtain ⟨y, found⟩ := word.old
  obtain ⟨z, new⟩ := word.new
  have firm := word.firm
  obtain ⟨a, b, split', start, stop⟩ := slice?_eq_some.mp found
  obtain ⟨rfl, rfl⟩ := append_inj_bytes (split.symm.trans (split'.trans (List.append_assoc ..)))
    (by omega)
  have spent : bytes (used ++ '/' :: y) = r.hi := by
    rw [bytes_append]
    omega
  have replaced := ahead.replace le (c := '/') (y := y) (z := z) (by decide) ⟨b, split'.symm⟩
    (new ▸ firm)
  by_cases tight : r.Tight press.source
  · -- the new text does not stand in the old one
    refine .inl ⟨used ++ '/' :: y, b, split', spent, fun fits => ?_⟩
    rw [new] at fits ⊢
    rcases replaced fits with more | ⟨d, v, part, -⟩
    · exact more
    · exact absurd (new ▸ part) (tight _ found d v)
  · refine .inr ⟨⟨used ++ '/' :: y, b, split', spent, ?_, fun fits => ?_⟩, tight⟩
    · exact word.ends.resolve_left tight _ b split' spent
    · dsimp only at fits ⊢
      rw [new] at fits ⊢
      rcases replaced fits with more | ⟨d, v, part, next⟩
      · exact .inl more
      · obtain ⟨e, first, flat⟩ := word.part _ d v found (new ▸ part)
        exact .inr ⟨e, flat, next e first⟩

theorem copySheet_passes (passes : press.Passes g sheet) (le : g ≤ 1)
    (h : press.copySheet sheet target = .ok s) : press.Passes g s := by
  rcases passes with ahead | ⟨torn, r, mem, stop, loose⟩
  · exact .inl (copySheet_ahead ahead le h)
  · obtain ⟨x, found, rfl⟩ := copySheet_eq_ok h
    have low := slice?_bytes found
    rcases Nat.lt_or_eq_of_le (show sheet.pos ≤ target by omega) with lt | same
    · exact .inl ((copySheet_torn torn lt h).lower le)
    · obtain rfl : x = [] := bytes_eq_zero.mp (by omega)
      subst same
      rw [List.append_nil]
      exact .inr ⟨torn, r, mem, stop, loose⟩

theorem reviseSheet_passes (words : ∀ r ∈ press.revisions, r.Renewed press.source)
    (mem : r ∈ press.revisions) (passes : press.Passes g sheet) (le : g ≤ 1)
    (h : press.reviseSheet sheet r = .ok s) : press.Passes 1 s := by
  obtain ⟨mid, copied, made⟩ := bind_eq_ok h
  have stop : mid.pos = r.lo := by
    obtain ⟨x, -, rfl⟩ := copySheet_eq_ok copied
    rfl
  have put : ∀ g, g ≤ 1 → mid.Ahead g press.source → press.Passes 1 s := by
    intro g le ahead
    cases made
    exact (put_revision (words r mem) ahead le stop).imp_right fun torn => ⟨torn.1, r, mem, rfl, torn.2⟩
  rcases passes with ahead | ⟨torn, -⟩
  · exact put g le (copySheet_ahead ahead le copied)
  · -- A line ends behind a torn comment, so the next one does not start there.
    refine put 1 (Nat.le_refl 1) (copySheet_torn torn ?_ copied)
    obtain ⟨used, rest, split, pos, ends, -⟩ := torn
    obtain ⟨x, found, -⟩ := copySheet_eq_ok copied
    obtain ⟨y, old⟩ := (words r mem).old
    have low := slice?_bytes found
    rcases Nat.lt_or_eq_of_le (show sheet.pos ≤ r.lo by omega) with lt | same
    · exact lt
    · obtain ⟨a, b, split', start, -⟩ := slice?_eq_some.mp old
      obtain ⟨-, rfl⟩ := append_inj_bytes (split.symm.trans (split'.trans (List.append_assoc ..)))
        (by omega)
      exact absurd (ends '/' rfl) (by decide)

theorem flushSheet_passes (words : ∀ r ∈ press.revisions, r.Renewed press.source)
    (fair : press.Fair) (cut : Cut press.source target) (le : g ≤ 1) (passes : press.Passes g sheet)
    (clear : ∀ r ∈ press.revisions, r.hi ≤ sheet.pos ∨ sheet.pos ≤ r.lo)
    (grown : ∀ r ∈ press.revisions, r.hi ≤ sheet.pos → press.Passes 1 sheet)
    (h : press.flushSheet sheet target = .ok s) :
    press.Passes g s ∧ ∀ r ∈ press.revisions, r.hi ≤ s.pos → press.Passes 1 s := by
  rcases Nat.lt_or_ge sheet.pos target with lt | ge
  · rw [flushSheet_go fair cut lt] at h
    obtain ⟨mid, revised, copied⟩ := bind_eq_ok h
    have stop : s.pos = target := by
      obtain ⟨x, -, rfl⟩ := copySheet_eq_ok copied
      rfl
    have fold : ∀ g, g ≤ 1 → ∀ (rs : List Revision), (∀ r ∈ rs, r ∈ press.revisions) →
        ∀ one, press.Passes g one → rs.foldlM press.reviseSheet one = .ok mid → press.Passes g mid := by
      intro g le rs mem one start run
      refine foldlM_keeps (I := press.Passes g) (fun r hr a b ha step => ?_) start run
      exact (reviseSheet_passes words (mem r hr) ha le step).lower le
    have mems : ∀ r ∈ press.due sheet.pos target, r ∈ press.revisions := fun r hr => (mem_due hr).1
    have one : ∀ g, g ≤ 1 → press.Passes g sheet → press.Passes g s := fun g le start =>
      copySheet_passes (fold g le _ mems sheet start revised) le copied
    refine ⟨one g le passes, fun r hr within => ?_⟩
    by_cases old : r.hi ≤ sheet.pos
    · exact one 1 (Nat.le_refl 1) (grown r hr old)
    · -- This comment was on the way.
      have due : r ∈ press.due sheet.pos target := by
        have := (clear r hr).resolve_left old
        have := (words r hr).lt
        refine List.mem_filter.mpr ⟨hr, ?_⟩
        simp only [Bool.and_eq_true, decide_eq_true_eq]
        omega
      cases rs : press.due sheet.pos target with
      | nil =>
        rw [rs] at due
        cases due
      | cons q qs =>
        rw [rs] at revised mems
        rw [List.foldlM_cons] at revised
        obtain ⟨next, first, others⟩ := bind_eq_ok revised
        have begun := reviseSheet_passes words (mems q List.mem_cons_self) passes le first
        exact copySheet_passes (fold 1 (Nat.le_refl 1) qs (fun r hr => mems r (List.mem_cons_of_mem q hr))
          next begun others) (Nat.le_refl 1) copied
  · rw [flushSheet_stay ge] at h
    cases h
    exact ⟨passes, grown⟩

def Stands (press : Press) (n : Nat) : Prop :=
  ∀ r ∈ press.revisions, (r.hi ≤ n ∨ n ≤ r.lo) ∧ (r.hi = n → r.Tight press.source)

/-- The sheet stands where something may be put in, and it is ahead, the more so behind a revised
comment. -/
structure Keeps (press : Press) (g : Nat) (sheet : Sheet) : Prop where
  stands : press.Stands sheet.pos
  ahead : sheet.Ahead g press.source
  grown : ∀ r ∈ press.revisions, r.hi ≤ sheet.pos → sheet.Ahead 1 press.source

theorem Keeps.lower (h : press.Keeps 1 sheet) (le : g ≤ 1) : press.Keeps g sheet :=
  ⟨h.stands, h.ahead.lower le, h.grown⟩

theorem Stands.ahead (stands : press.Stands sheet.pos) (passes : press.Passes g sheet) :
    sheet.Ahead g press.source := by
  rcases passes with ahead | ⟨-, r, mem, stop, loose⟩
  · exact ahead
  · exact absurd ((stands r mem).2 stop) loose

/-- Text is put on a sheet. -/
theorem Keeps.put (keeps : press.Keeps g sheet) (pos : s.pos = sheet.pos)
    (each : ∀ g, sheet.Ahead g press.source → s.Ahead g press.source) : press.Keeps g s where
  stands := by
    rw [pos]
    exact keeps.stands
  ahead := each g keeps.ahead
  grown := by
    rw [pos]
    exact fun r mem within => each 1 (keeps.grown r mem within)

theorem Keeps.raise (keeps : press.Keeps g sheet) (ahead : sheet.Ahead 1 press.source) :
    press.Keeps 1 sheet := ⟨keeps.stands, ahead, keeps.grown⟩

section Words

variable (words : ∀ r ∈ press.revisions, r.Renewed press.source) (fair : press.Fair)

include words fair

theorem flushSheet_keeps_ahead (cut : Cut press.source target) (stands : press.Stands target)
    (le : g ≤ 1) (start : Cut press.source sheet.pos) (keeps : press.Keeps g sheet)
    (h : press.flushSheet sheet target = .ok s) : press.Keeps g s := by
  have here : press.Stands s.pos := flushSheet_keeps fair start cut h keeps.stands stands
  obtain ⟨passes, grown⟩ := flushSheet_passes words fair cut le (.inl keeps.ahead)
    (fun r mem => (keeps.stands r mem).1) (fun r mem within => .inl (keeps.grown r mem within)) h
  exact ⟨here, here.ahead passes, fun r mem within => here.ahead (grown r mem within)⟩

end Words

theorem not_run_render (c : Comment) : ¬ Run c.render := by
  intro run
  have first : '/' ∈ c.render := by
    unfold Comment.render
    cases c.kind <;> exact List.mem_cons_self
  exact absurd (run '/' first) (by decide)

theorem not_run_append {a b : Text} (h : ¬ Run a ∨ ¬ Run b) : ¬ Run (a ++ b) := by
  intro run
  rcases h with h | h
  · exact h fun c mem => run c (List.mem_append_left _ mem)
  · exact h fun c mem => run c (List.mem_append_right _ mem)

theorem leadSheet_ahead {lo : Nat} {cs : List Comment} (h : press.leadSheet sheet lo cs = .ok s)
    (ahead : sheet.Ahead g press.source) :
    s.Ahead g press.source ∧ (cs ≠ [] → s.Ahead 1 press.source) := by
  cases cs with
  | nil =>
    cases h
    exact ⟨ahead, fun ne => absurd rfl ne⟩
  | cons c cs =>
    obtain ⟨indent, -, h⟩ := bind_eq_ok h
    obtain ⟨first, -, h⟩ := bind_eq_ok h
    cases h
    rw [foldl_rows]
    have before : ∀ g, sheet.Ahead g press.source →
        (if first then sheet else (sheet.trimEnd.add press.eol).add indent).Ahead g press.source := by
      intro g ahead
      split
      · exact ahead
      · exact (ahead.trimEnd.add _).add _
    refine ⟨(before g ahead).add _, fun _ => (before g ahead).add_ink ?_⟩
    unfold rows
    rw [List.flatMap_cons, List.append_assoc, List.append_assoc]
    exact not_run_append (.inl (not_run_render c))

theorem trailSheet_ahead {indent : Text} {c : Comment} (h : press.trailSheet indent sheet c = .ok s)
    (ahead : sheet.Ahead g press.source) : s.Ahead g press.source ∧ s.Ahead 1 press.source := by
  obtain ⟨follows, -, h⟩ := bind_eq_ok h
  dsimp only at h
  have ink := not_run_render c
  split at h
  · have put : ∀ g, sheet.Ahead g press.source →
        (((sheet.add press.eol).add indent).add c.render).Ahead g press.source ∧
          (((sheet.add press.eol).add indent).add c.render).Ahead 1 press.source := fun g ahead =>
      ⟨((ahead.add _).add _).add _, ((ahead.add _).add _).add_ink ink⟩
    split at h
    · obtain ⟨resume, -, h⟩ := bind_eq_ok h
      cases h
      exact ⟨((put g ahead).1.add _).add _, ((put g ahead).2.add _).add _⟩
    · cases h
      exact put g ahead
  · split at h
    · cases h
      exact ⟨ahead.add _, ahead.add_ink (not_run_append (.inl (not_run_append (.inl (by decide)))))⟩
    · cases h
      exact ⟨(ahead.add _).add _, (ahead.add _).add_ink ink⟩

theorem trailAll_ahead {indent : Text} {cs : List Comment}
    (h : cs.foldlM (press.trailSheet indent) sheet = .ok s) (ahead : sheet.Ahead g press.source) :
    s.Ahead g press.source ∧ (cs ≠ [] → s.Ahead 1 press.source) := by
  have run : ∀ g (cs : List Comment) (one : Sheet), cs.foldlM (press.trailSheet indent) one = .ok s →
      one.Ahead g press.source → s.Ahead g press.source := fun g cs one h ahead =>
    foldlM_keeps (I := fun t => t.Ahead g press.source)
      (fun c _ a b ha step => (trailSheet_ahead step ha).1) ahead h
  refine ⟨run g cs sheet h ahead, fun ne => ?_⟩
  cases cs with
  | nil => exact absurd rfl ne
  | cons c cs =>
    rw [List.foldlM_cons] at h
    obtain ⟨mid, first, rest⟩ := bind_eq_ok h
    exact run 1 cs mid rest (trailSheet_ahead first ahead).2

end Press

def Stroke.Loud : Stroke → Prop
  | .start _ comments => comments ≠ []
  | .behind _ _ comments => comments ≠ []
  | .put t => ¬ Run t
  | _ => False

namespace Press

variable {press : Press} {sheet s : Sheet} {g target : Nat}
variable (words : ∀ r ∈ press.revisions, r.Renewed press.source) (fair : press.Fair)

include words fair

theorem strike_keeps {stroke : Stroke} (fits : stroke.Fits press.source)
    (stops : ∀ n ∈ stroke.stops, press.Stands n) (le : g ≤ 1) (start : Cut press.source sheet.pos)
    (keeps : press.Keeps g sheet) (h : press.strike sheet stroke = .ok s) :
    press.Keeps g s ∧ (stroke.Loud → press.Keeps 1 s) := by
  have flush : ∀ {n : Nat} {t : Sheet}, Cut press.source n → press.Stands n →
      press.flushSheet sheet n = .ok t → press.Keeps g t := fun cut stands flushed =>
    flushSheet_keeps_ahead words fair cut stands le start keeps flushed
  cases stroke with
  | start lo comments =>
    obtain ⟨mid, flushed, led⟩ := bind_eq_ok h
    have keeps := flush fits (stops lo List.mem_cons_self) flushed
    have kept := keeps.put (leadSheet_pos led) fun g ahead => (leadSheet_ahead led ahead).1
    exact ⟨kept, fun loud => kept.raise ((leadSheet_ahead led keeps.ahead).2 loud)⟩
  | reach target => exact ⟨flush fits (stops target List.mem_cons_self) h, nofun⟩
  | inside opened ends =>
    refine ⟨?_, nofun⟩
    exact flush (inside_keeps start fits.1 fits.2) (inside_stops keeps.stands stops) h
  | behind anchor margin comments =>
    have trail : ∀ {mid : Sheet} {indent : Text}, press.Keeps g mid →
        comments.foldlM (press.trailSheet indent) mid = .ok s →
        press.Keeps g s ∧ (comments ≠ [] → press.Keeps 1 s) := by
      intro mid indent keeps trailed
      have kept := keeps.put (trailAll_pos trailed) fun g ahead => (trailAll_ahead trailed ahead).1
      exact ⟨kept, fun loud => kept.raise ((trailAll_ahead trailed keeps.ahead).2 loud)⟩
    cases anchor with
    | none =>
      obtain ⟨indent, -, trailed⟩ := bind_eq_ok h
      exact trail keeps trailed
    | some offset =>
      obtain ⟨mid, flushed, h⟩ := bind_eq_ok h
      obtain ⟨indent, -, trailed⟩ := bind_eq_ok h
      exact trail (flush (fits.1 offset rfl) (stops offset List.mem_cons_self) flushed) trailed
  | put t =>
    cases h
    have kept : press.Keeps g (sheet.add t) := keeps.put rfl fun g ahead => ahead.add t
    exact ⟨kept, fun loud => kept.raise (keeps.ahead.add_ink loud)⟩

theorem strikeAll_keeps {strokes : List Stroke} (fits : ∀ st ∈ strokes, st.Fits press.source)
    (stops : ∀ st ∈ strokes, ∀ n ∈ st.stops, press.Stands n) (le : g ≤ 1)
    (start : Cut press.source sheet.pos) (keeps : press.Keeps g sheet)
    (h : strokes.foldlM press.strike sheet = .ok s) :
    press.Keeps g s ∧ ((∃ st ∈ strokes, st.Loud) → press.Keeps 1 s) := by
  induction strokes generalizing sheet g with
  | nil =>
    cases h
    exact ⟨keeps, nofun⟩
  | cons st strokes ih =>
    rw [List.foldlM_cons] at h
    obtain ⟨mid, first, rest⟩ := bind_eq_ok h
    have step := strike_keeps words fair (fits st List.mem_cons_self) (stops st List.mem_cons_self) le
      start keeps first
    have later : ∀ {g}, g ≤ 1 → press.Keeps g mid →
        press.Keeps g s ∧ ((∃ st ∈ strokes, st.Loud) → press.Keeps 1 s) := fun le keeps =>
      ih (fun q hq => fits q (List.mem_cons_of_mem st hq))
        (fun q hq => stops q (List.mem_cons_of_mem st hq)) le (strike_cut start first) keeps rest
    refine ⟨(later le step.1).1, ?_⟩
    rintro ⟨q, hq, loud⟩
    rcases List.mem_cons.mp hq with rfl | hq
    · exact (later (Nat.le_refl 1) (step.2 loud)).1
    · exact (later le step.1).2 ⟨q, hq, loud⟩

/-- Strokes whose stops stand, then the end of a node outside of all comments and the rest of the
source: if a comment is revised or a stroke is loud then the sheet does not spell the source. -/
theorem strikeAll_text_ne {strokes : List Stroke} (fits : ∀ st ∈ strokes, st.Fits press.source)
    (stops : ∀ st ∈ strokes, ∀ n ∈ st.stops, press.Stands n)
    (changed : press.revisions ≠ [] ∨ ∃ st ∈ strokes, st.Loud) {first mid : Sheet}
    (struck : strokes.foldlM press.strike {} = .ok first) (cut : Cut press.source target)
    (clear : ∀ r ∈ press.revisions, r.hi ≤ target ∨ target ≤ r.lo)
    (reached : press.flushSheet first target = .ok mid)
    (flushed : press.flushSheet mid (bytes press.source) = .ok s) : s.text ≠ press.source := by
  have zero : Cut press.source (Sheet.pos {}) := Cut.zero _
  have full := Cut.full press.source
  have origin : press.Keeps 0 {} := by
    have later : ∀ r ∈ press.revisions, ¬ r.hi ≤ 0 := fun r mem => by
      have := (words r mem).lt
      omega
    refine ⟨fun r mem => ⟨.inr (Nat.zero_le _), fun stop => ?_⟩, .start _, fun r mem within => ?_⟩
    · exact absurd (Nat.le_of_eq stop) (later r mem)
    · exact absurd within (later r mem)
  obtain ⟨kept, raised⟩ := strikeAll_keeps words fair fits stops (Nat.zero_le 1) zero origin struck
  have start := strikeAll_cut zero struck
  have next : Cut press.source mid.pos := flushSheet_keeps fair start cut reached start cut
  have stop : s.pos = bytes press.source := by
    rw [flushSheet_pos fair next full flushed]
    exact Nat.max_eq_right next.le_bytes
  have done : ∀ {g}, g ≤ 1 → press.Keeps g first →
      press.Passes g s ∧ ∀ r ∈ press.revisions, r.hi ≤ s.pos → press.Passes 1 s := by
    intro g le keeps
    have apart := fun r mem => (keeps.stands r mem).1
    obtain ⟨passes, grown⟩ := flushSheet_passes words fair cut le (.inl keeps.ahead) apart
      (fun r mem within => .inl (keeps.grown r mem within)) reached
    have apart' := flushSheet_keeps (P := fun n => ∀ r ∈ press.revisions, r.hi ≤ n ∨ n ≤ r.lo) fair
      start cut reached apart clear
    exact flushSheet_passes words fair full le passes apart' grown flushed
  have passes : press.Passes 1 s := by
    rcases changed with some | loud
    · obtain ⟨r, rs, revisions⟩ := List.exists_cons_of_ne_nil some
      have mem : r ∈ press.revisions := by
        rw [revisions]
        exact List.mem_cons_self
      refine (done (Nat.zero_le 1) kept).2 r mem ?_
      rw [stop]
      exact (fair.each r mem).2.2.1.le_bytes
    · exact (done (Nat.le_refl 1) (raised loud)).1
  rcases passes with ahead | ⟨torn, -⟩
  · exact ahead.text_ne stop
  · exact torn.text_ne stop

end Press
end Quell
