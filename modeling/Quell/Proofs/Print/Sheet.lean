import Quell.Proofs.Print.Whole

/-!
Printing without pieces.

What a page spells and how far the source is spent is all that printing reads of it. A sheet is just
that, and strokes on sheets do what strokes on pages do: `perform_sheet`. Stops on the way to an
offset leave no trace on a sheet, unless they cut a revised comment: `flush_flush`.
-/
namespace Quell

open Text Relation

structure Sheet where
  text : Text := []
  pos : Nat := 0

namespace Sheet

def add (sheet : Sheet) (t : Text) : Sheet := { sheet with text := sheet.text ++ t }

def trimEnd (sheet : Sheet) : Sheet :=
  { sheet with text := (sheet.text.reverse.dropWhile Page.isSpaceOrTab).reverse }

end Sheet

def Page.sheet (page : Page) : Sheet := ⟨page.text, page.pos⟩

theorem Page.sheet_add (page : Page) (t : Text) : (page.add t).sheet = page.sheet.add t := by
  unfold Page.sheet Page.add Sheet.add Page.text
  simp

theorem Page.text_stripEnd (ps : List Piece) :
    (Page.stripEnd ps).reverse.flatMap (·.text) =
      ((ps.reverse.flatMap (·.text)).reverse.dropWhile Page.isSpaceOrTab).reverse := by
  induction ps with
  | nil => rfl
  | cons p ps ih =>
    rw [Page.stripEnd]
    have spelled : ((p :: ps).reverse.flatMap (·.text)).reverse =
        p.text.reverse ++ (ps.reverse.flatMap (·.text)).reverse := by
      simp
    rw [spelled, List.dropWhile_append]
    cases kept : p.text.reverse.dropWhile Page.isSpaceOrTab with
    | nil => simp [ih]
    | cons c cs => simp

theorem Page.sheet_trimEnd (page : Page) : page.trimEnd.sheet = page.sheet.trimEnd := by
  unfold Page.sheet Page.trimEnd Sheet.trimEnd Page.text
  rw [Page.text_stripEnd]

namespace Press

variable (press : Press)

def copySheet (sheet : Sheet) (target : Nat) : Except Fault Sheet := do
  let t ← press.slice sheet.pos target
  return ⟨sheet.text ++ t, target⟩

def reviseSheet (sheet : Sheet) (r : Revision) : Except Fault Sheet := do
  let sheet ← press.copySheet sheet r.lo
  return ⟨sheet.text ++ r.text, r.hi⟩

def due (pos target : Nat) : List Revision :=
  press.revisions.filter fun r => pos ≤ r.lo && r.lo < target && r.hi ≤ target

def flushSheet (sheet : Sheet) (target : Nat) : Except Fault Sheet := do
  let target := min target press.size
  if target ≤ sheet.pos then return sheet
  let sheet ← (press.due sheet.pos target).foldlM press.reviseSheet sheet
  press.copySheet sheet target

def leadSheet (sheet : Sheet) (lo : Nat) : List Comment → Except Fault Sheet
  | [] => .ok sheet
  | c :: cs => do
    let indent ← press.lineIndent lo
    let first ← press.firstOnLine lo
    let sheet := if first then sheet else (sheet.trimEnd.add press.eol).add indent
    return (c :: cs).foldl (fun s c => ((s.add c.render).add press.eol).add indent) sheet

def followsAt (pos : Nat) : Except Fault Bool := do
  let rest ← press.slice pos press.size
  return !rest.firstLine.allBlank

def trailSheet (indent : Text) (sheet : Sheet) (c : Comment) : Except Fault Sheet := do
  let follows ← press.followsAt sheet.pos
  let cuts := follows && c.kind == .line
  match c.placement with
  | .trailing true =>
    let sheet := ((sheet.add press.eol).add indent).add c.render
    if cuts then
      let resume ← press.lineIndent sheet.pos
      return (sheet.add press.eol).add resume
    else return sheet
  | _ =>
    if cuts then return sheet.add (" /*".toList ++ c.text.trimEnd ++ " */".toList)
    else return (sheet.add [' ']).add c.render

def strike (sheet : Sheet) : Stroke → Except Fault Sheet
  | .start lo comments => do
    let sheet ← press.flushSheet sheet lo
    press.leadSheet sheet lo comments
  | .reach target => press.flushSheet sheet target
  | .inside opened ends => press.flushSheet sheet (ends.foldl max (opened.getD sheet.pos))
  | .behind (some offset) margin comments => do
    let sheet ← press.flushSheet sheet offset
    let indent ← press.marginText margin
    comments.foldlM (press.trailSheet indent) sheet
  | .behind none margin comments => do
    let indent ← press.marginText margin
    comments.foldlM (press.trailSheet indent) sheet
  | .put t => .ok (sheet.add t)

theorem copyTo_sheet (page : Page) (target : Nat) :
    (press.copyTo page target).map Page.sheet = press.copySheet page.sheet target := by
  unfold copyTo copySheet
  have pos : page.sheet.pos = page.pos := rfl
  rw [pos]
  cases press.slice page.pos target with
  | error e => rfl
  | ok t =>
    show Except.ok _ = Except.ok _
    simp [Page.sheet, Page.text]

theorem copyRevision_sheet (page : Page) (r : Revision) :
    (press.copyRevision page r).map Page.sheet = press.reviseSheet page.sheet r := by
  unfold copyRevision reviseSheet
  rw [← copyTo_sheet]
  cases press.copyTo page r.lo with
  | error e => rfl
  | ok q =>
    show Except.ok _ = Except.ok _
    simp [Page.sheet, Page.text]

theorem flushTo_sheet (page : Page) (target : Nat) :
    (press.flushTo page target).map Page.sheet = press.flushSheet page.sheet target := by
  unfold flushTo flushSheet
  have pos : page.sheet.pos = page.pos := rfl
  dsimp only
  rw [pos]
  split
  · rfl
  · have fold := foldlM_map press.copyRevision_sheet page (press.due page.pos (min target press.size))
    unfold due at fold ⊢
    rw [← fold]
    cases (press.revisions.filter _).foldlM press.copyRevision page with
    | error e => rfl
    | ok q => exact press.copyTo_sheet q _

theorem sheet_foldl {f : Page → Comment → Page} {g : Sheet → Comment → Sheet}
    (step : ∀ page c, (f page c).sheet = g page.sheet c) (cs : List Comment) (page : Page) :
    (cs.foldl f page).sheet = cs.foldl g page.sheet := by
  induction cs generalizing page with
  | nil => rfl
  | cons c cs ih => rw [List.foldl_cons, List.foldl_cons, ih, step]

theorem lead_sheet (page : Page) (lo : Nat) (cs : List Comment) :
    (press.lead page lo cs).map Page.sheet = press.leadSheet page.sheet lo cs := by
  cases cs with
  | nil => rfl
  | cons c cs =>
    unfold lead leadSheet
    cases press.lineIndent lo with
    | error e => rfl
    | ok indent =>
      cases press.firstOnLine lo with
      | error e => rfl
      | ok first =>
        show Except.ok _ = Except.ok _
        rw [sheet_foldl (g := fun s c => ((s.add c.render).add press.eol).add indent)
          fun page c => by simp only [Page.sheet_add]]
        cases first with
        | true => rfl
        | false => simp only [Bool.false_eq_true, if_false, Page.sheet_add, Page.sheet_trimEnd]

theorem emitTrailingComment_sheet (indent : Text) (page : Page) (c : Comment) :
    (press.emitTrailingComment indent page c).map Page.sheet =
      press.trailSheet indent page.sheet c := by
  have follows : press.codeFollows page = press.followsAt page.sheet.pos := rfl
  unfold emitTrailingComment trailSheet
  rw [follows]
  cases press.followsAt page.sheet.pos with
  | error e => rfl
  | ok b =>
    show Except.map Page.sheet (match c.placement with | .trailing true => _ | _ => _) =
      (match c.placement with | .trailing true => _ | _ => _)
    split
    · cases (b && c.kind == .line) with
      | false =>
        show Except.ok _ = Except.ok _
        simp only [Page.sheet_add]
      | true =>
        show Except.map Page.sheet (press.lineIndent page.pos >>= _) = (press.lineIndent page.pos >>= _)
        cases press.lineIndent page.pos with
        | error e => rfl
        | ok resume =>
          show Except.ok _ = Except.ok _
          simp only [Page.sheet_add]
    · cases (b && c.kind == .line) with
      | false =>
        show Except.ok _ = Except.ok _
        simp only [Page.sheet_add]
      | true =>
        show Except.ok _ = Except.ok _
        simp only [Page.sheet_add]

theorem trailing_sheet (indent : Text) (page : Page) (cs : List Comment) :
    (cs.foldlM (press.emitTrailingComment indent) page).map Page.sheet =
      cs.foldlM (press.trailSheet indent) page.sheet :=
  foldlM_map (press.emitTrailingComment_sheet indent) page cs

theorem perform_sheet (page : Page) (stroke : Stroke) :
    (press.perform page stroke).map Page.sheet = press.strike page.sheet stroke := by
  cases stroke with
  | start lo comments =>
    rw [perform, strike, ← flushTo_sheet]
    cases press.flushTo page lo with
    | error e => rfl
    | ok q => exact press.lead_sheet q lo comments
  | reach target => exact press.flushTo_sheet page target
  | inside opened ends => exact press.flushTo_sheet page _
  | behind anchor margin comments =>
    cases anchor with
    | none =>
      rw [perform, strike]
      cases press.marginText margin with
      | error e => rfl
      | ok indent => exact press.trailing_sheet indent page comments
    | some offset =>
      rw [perform, strike, ← flushTo_sheet]
      cases press.flushTo page offset with
      | error e => rfl
      | ok q =>
        show Except.map Page.sheet (press.marginText margin >>= _) = (press.marginText margin >>= _)
        cases press.marginText margin with
        | error e => rfl
        | ok indent => exact press.trailing_sheet indent q comments
  | put t =>
    show Except.ok _ = Except.ok _
    rw [Page.sheet_add]

theorem performAll_sheet (page : Page) (strokes : List Stroke) :
    (strokes.foldlM press.perform page).map Page.sheet =
      strokes.foldlM press.strike page.sheet :=
  foldlM_map press.perform_sheet page strokes

end Press

theorem Document.print_eq_strike (doc : Document) (source : Text) :
    doc.print source =
      ((doc.strokes source.bytes).foldlM (Press.of doc source).strike {}).map (·.text) := by
  have sheets := (Press.of doc source).performAll_sheet {} (doc.strokes source.bytes)
  have blank : Page.sheet {} = {} := rfl
  rw [blank] at sheets
  rw [← sheets]
  unfold Document.print
  rw [Press.run_eq_perform]
  cases (doc.strokes source.bytes).foldlM (Press.of doc source).perform {} with
  | error e => rfl
  | ok page => rfl

namespace Press

variable {press : Press} {sheet : Sheet} {mid target : Nat}

theorem copySheet_eq {t : Text} (h : slice? sheet.pos target press.source = some t) :
    press.copySheet sheet target = .ok ⟨sheet.text ++ t, target⟩ := by
  unfold copySheet
  rw [slice_eq h]
  rfl

theorem copy_copy (start : Cut press.source sheet.pos) (stop : Cut press.source mid)
    (cut : Cut press.source target) (low : sheet.pos ≤ mid) (le : mid ≤ target) :
    (press.copySheet sheet mid >>= fun s => press.copySheet s target) =
      press.copySheet sheet target := by
  obtain ⟨x, hx⟩ := start.slice stop low
  obtain ⟨y, hy⟩ := stop.slice cut le
  rw [copySheet_eq hx, copySheet_eq (slice?_join hx hy)]
  show press.copySheet ⟨sheet.text ++ x, mid⟩ target = _
  rw [copySheet_eq hy, List.append_assoc]

theorem copy_revise (fair : press.Fair) (start : Cut press.source sheet.pos)
    (stop : Cut press.source mid) (cut : Cut press.source target) (low : sheet.pos ≤ mid)
    (le : mid ≤ target) {rs : List Revision} (mem : ∀ r ∈ rs, r ∈ press.revisions)
    (ahead : ∀ r ∈ rs, mid ≤ r.lo) :
    (press.copySheet sheet mid >>= fun s => rs.foldlM press.reviseSheet s >>= fun s =>
        press.copySheet s target) =
      (rs.foldlM press.reviseSheet sheet >>= fun s => press.copySheet s target) := by
  cases rs with
  | nil => exact copy_copy start stop cut low le
  | cons r rs =>
    have here := fair.each r (mem r List.mem_cons_self)
    have joined := copy_copy start stop here.2.1 low (ahead r List.mem_cons_self)
    obtain ⟨x, hx⟩ := start.slice stop low
    rw [copySheet_eq hx] at joined ⊢
    have same : press.reviseSheet ⟨sheet.text ++ x, mid⟩ r = press.reviseSheet sheet r := by
      unfold reviseSheet
      rw [← joined]
      rfl
    show ((r :: rs).foldlM press.reviseSheet ⟨sheet.text ++ x, mid⟩ >>= _) = _
    rw [List.foldlM_cons, List.foldlM_cons, same]

theorem revise_ok (fair : press.Fair) (cut : Cut press.source sheet.pos) {r : Revision}
    (mem : r ∈ press.revisions) (le : sheet.pos ≤ r.lo) :
    ∃ t, press.reviseSheet sheet r = .ok ⟨sheet.text ++ t, r.hi⟩ := by
  have here := fair.each r mem
  obtain ⟨x, hx⟩ := cut.slice here.2.1 le
  refine ⟨x ++ r.text, ?_⟩
  unfold reviseSheet
  rw [copySheet_eq hx]
  show Except.ok _ = Except.ok _
  rw [List.append_assoc]

theorem reviseAll_ok (fair : press.Fair) (rs : List Revision)
    (apart : rs.Pairwise fun r q => r.hi ≤ q.lo) (mem : ∀ r ∈ rs, r ∈ press.revisions)
    (cut : Cut press.source sheet.pos) (ahead : ∀ r ∈ rs, sheet.pos ≤ r.lo)
    (low : sheet.pos ≤ target) (within : ∀ r ∈ rs, r.hi ≤ target) :
    ∃ t pos, rs.foldlM press.reviseSheet sheet = .ok ⟨sheet.text ++ t, pos⟩ ∧
      pos ≤ target ∧ Cut press.source pos := by
  induction rs generalizing sheet with
  | nil => exact ⟨[], sheet.pos, by rw [List.append_nil]; rfl, low, cut⟩
  | cons r rs ih =>
    obtain ⟨t, ht⟩ := revise_ok fair cut (mem r List.mem_cons_self) (ahead r List.mem_cons_self)
    have here := fair.each r (mem r List.mem_cons_self)
    obtain ⟨first, apart⟩ := List.pairwise_cons.mp apart
    obtain ⟨u, pos, hu, le, stop⟩ := @ih ⟨sheet.text ++ t, r.hi⟩ apart
      (fun q hq => mem q (List.mem_cons_of_mem _ hq)) here.2.2.1 first
      (within r List.mem_cons_self) (fun q hq => within q (List.mem_cons_of_mem _ hq))
    refine ⟨t ++ u, pos, ?_, le, stop⟩
    rw [List.foldlM_cons, ht]
    show rs.foldlM press.reviseSheet ⟨sheet.text ++ t, r.hi⟩ = _
    rw [hu, List.append_assoc]

theorem due_split (fair : press.Fair) {pos : Nat} (le : mid ≤ target)
    (low : pos ≤ mid) (whole : ∀ r ∈ press.revisions, r.hi ≤ mid ∨ mid ≤ r.lo) :
    press.due pos target = press.due pos mid ++ press.due mid target := by
  have apart := fair.apart
  have each : ∀ r ∈ press.revisions, r.lo ≤ r.hi := fun r hr => (fair.each r hr).1
  unfold due
  generalize press.revisions = rs at apart each whole
  induction rs with
  | nil => rfl
  | cons r rs ih =>
    obtain ⟨first, apart⟩ := List.pairwise_cons.mp apart
    have rest := ih apart (fun q hq => each q (List.mem_cons_of_mem _ hq))
      fun q hq => whole q (List.mem_cons_of_mem _ hq)
    by_cases front : r.lo < mid
    · -- The comment lies in front of the stop: it is due in both or in none.
      have ends : r.hi ≤ mid := (whole r List.mem_cons_self).resolve_right (by omega)
      have later : (decide (mid ≤ r.lo) && decide (r.lo < target) && decide (r.hi ≤ target)) = false := by
        simp only [Bool.and_eq_false_iff, decide_eq_false_iff_not]
        exact .inl (.inl (by omega))
      have through : (decide (pos ≤ r.lo) && decide (r.lo < target) && decide (r.hi ≤ target)) =
          (decide (pos ≤ r.lo) && decide (r.lo < mid) && decide (r.hi ≤ mid)) := by
        rw [Bool.eq_iff_iff]
        simp only [Bool.and_eq_true, decide_eq_true_eq]
        omega
      rw [List.filter_cons, List.filter_cons, List.filter_cons_of_neg (by rw [later]; simp), through,
        rest]
      split
      · rfl
      · rfl
    · -- It lies behind the stop, and so do all later ones.
      have behind : ∀ q ∈ r :: rs, mid ≤ q.lo := by
        intro q hq
        rcases List.mem_cons.mp hq with rfl | hq
        · omega
        · have := first q hq
          have := each r List.mem_cons_self
          omega
      have none : (r :: rs).filter (fun q => pos ≤ q.lo && q.lo < mid && q.hi ≤ mid) = [] := by
        rw [List.filter_eq_nil_iff]
        intro q hq
        have := behind q hq
        simp only [Bool.and_eq_true, decide_eq_true_eq]
        omega
      rw [none, List.nil_append]
      refine List.filter_congr fun q hq => ?_
      have := behind q hq
      rw [Bool.eq_iff_iff]
      simp only [Bool.and_eq_true, decide_eq_true_eq]
      omega

theorem mem_due {p q : Nat} {r : Revision} (h : r ∈ press.due p q) :
    r ∈ press.revisions ∧ p ≤ r.lo ∧ r.hi ≤ q := by
  obtain ⟨mem, here⟩ := List.mem_filter.mp h
  simp only [Bool.and_eq_true, decide_eq_true_eq] at here
  exact ⟨mem, here.1.1, here.2⟩

theorem flushSheet_stay (passed : target ≤ sheet.pos) :
    press.flushSheet sheet target = .ok sheet := by
  unfold flushSheet
  dsimp only
  rw [if_pos (Nat.le_trans (Nat.min_le_left _ _) passed)]
  rfl

theorem flushSheet_go (fair : press.Fair) (cut : Cut press.source target)
    (ahead : sheet.pos < target) :
    press.flushSheet sheet target =
      ((press.due sheet.pos target).foldlM press.reviseSheet sheet >>= fun s =>
        press.copySheet s target) := by
  have inside : min target press.size = target := by rw [fair.size]; exact cut.min_bytes
  unfold flushSheet
  dsimp only
  rw [inside, if_neg (Nat.not_le_of_lt ahead)]

theorem reviseDue_ok (fair : press.Fair) (start : Cut press.source sheet.pos)
    (ahead : sheet.pos ≤ target) :
    ∃ t pos, (press.due sheet.pos target).foldlM press.reviseSheet sheet =
      .ok ⟨sheet.text ++ t, pos⟩ ∧ pos ≤ target ∧ Cut press.source pos :=
  reviseAll_ok fair _ (fair.apart.filter _) (fun _ hr => (mem_due hr).1) start
    (fun _ hr => (mem_due hr).2.1) ahead fun _ hr => (mem_due hr).2.2

theorem flushSheet_ok (fair : press.Fair) (start : Cut press.source sheet.pos)
    (cut : Cut press.source target) :
    ∃ t, press.flushSheet sheet target = .ok ⟨sheet.text ++ t, max sheet.pos target⟩ := by
  rcases Nat.lt_or_ge sheet.pos target with ahead | passed
  · obtain ⟨t, pos, fold, le, stop⟩ := reviseDue_ok fair start (Nat.le_of_lt ahead)
    obtain ⟨x, hx⟩ := stop.slice cut le
    refine ⟨t ++ x, ?_⟩
    rw [flushSheet_go fair cut ahead, fold, Nat.max_eq_right (Nat.le_of_lt ahead),
      ← List.append_assoc]
    exact copySheet_eq hx
  · refine ⟨[], ?_⟩
    rw [flushSheet_stay passed, List.append_nil, Nat.max_eq_left passed]

theorem flush_flush (fair : press.Fair) (start : Cut press.source sheet.pos)
    (stop : Cut press.source mid) (cut : Cut press.source target) (le : mid ≤ target)
    (whole : ∀ r ∈ press.revisions, r.hi ≤ mid ∨ mid ≤ r.lo) :
    (press.flushSheet sheet mid >>= fun s => press.flushSheet s target) =
      press.flushSheet sheet target := by
  rcases Nat.lt_or_ge sheet.pos mid with ahead | passed
  · rcases Nat.lt_or_eq_of_le le with lt | rfl
    · obtain ⟨t, pos, fold, pos_le, pos_cut⟩ := reviseDue_ok fair start (Nat.le_of_lt ahead)
      have through := @copy_revise press ⟨sheet.text ++ t, pos⟩ mid target fair pos_cut stop cut
        pos_le le (press.due mid target) (fun r hr => (mem_due hr).1) fun r hr => (mem_due hr).2.1
      have first : press.flushSheet sheet mid = press.copySheet ⟨sheet.text ++ t, pos⟩ mid := by
        rw [flushSheet_go fair stop ahead, fold]
        rfl
      have all : press.flushSheet sheet target =
          ((press.due mid target).foldlM press.reviseSheet ⟨sheet.text ++ t, pos⟩ >>= fun s =>
            press.copySheet s target) := by
        rw [flushSheet_go fair cut (Nat.lt_trans ahead lt),
          due_split fair le (Nat.le_of_lt ahead) whole, List.foldlM_append, fold]
        rfl
      obtain ⟨x, hx⟩ := pos_cut.slice stop pos_le
      rw [first, all, ← through, copySheet_eq hx]
      exact flushSheet_go fair cut lt
    · obtain ⟨t, ht⟩ := flushSheet_ok fair start stop
      rw [ht]
      exact flushSheet_stay (Nat.le_max_right _ _)
  · rw [flushSheet_stay passed]
    rfl

theorem slice_eq_ok {lo hi : Nat} {t : Text} (h : press.slice lo hi = .ok t) :
    slice? lo hi press.source = some t := by
  unfold slice at h
  split at h
  · cases h
    assumption
  · cases h

theorem lineIndent_run {offset : Nat} {t : Text} (h : press.lineIndent offset = .ok t) : Run t := by
  obtain ⟨start, -, h⟩ := bind_eq_ok h
  obtain ⟨rest, -, h⟩ := bind_eq_ok h
  cases h
  exact fun c mem => List.mem_takeWhile_imp mem

theorem run_indentUnit (base : Text) : Run (indentUnit base) := by
  unfold indentUnit
  split <;> decide

theorem marginText_run {margin : Margin} {t : Text} (h : press.marginText margin = .ok t) : Run t := by
  match margin, h with
  | .line lo, h => exact lineIndent_run h
  | .nested none, h =>
    cases h
    exact run_indentUnit []
  | .nested (some lo), h =>
    obtain ⟨base, found, h⟩ := bind_eq_ok h
    cases h
    intro c mem
    rcases List.mem_append.mp mem with mem | mem
    · exact lineIndent_run found c mem
    · exact run_indentUnit base c mem

theorem copySheet_cut {sheet' : Sheet} (h : press.copySheet sheet target = .ok sheet') :
    Cut press.source sheet'.pos := by
  obtain ⟨t, ht, made⟩ := bind_eq_ok h
  unfold slice at ht
  split at ht
  · rename_i found
    cases made
    exact (slice?_cuts found).2.1
  · cases ht

theorem flushSheet_cut {sheet' : Sheet} (cut : Cut press.source sheet.pos)
    (h : press.flushSheet sheet target = .ok sheet') : Cut press.source sheet'.pos := by
  unfold flushSheet at h
  dsimp only at h
  split at h
  · cases h
    exact cut
  · obtain ⟨s, -, copied⟩ := bind_eq_ok h
    exact copySheet_cut copied

theorem leadSheet_pos {sheet' : Sheet} {lo : Nat} {cs : List Comment}
    (h : press.leadSheet sheet lo cs = .ok sheet') : sheet'.pos = sheet.pos := by
  have fold : ∀ (cs : List Comment) (indent : Text) (s : Sheet),
      (cs.foldl (fun s c => ((s.add c.render).add press.eol).add indent) s).pos = s.pos := by
    intro cs indent
    induction cs with
    | nil => exact fun _ => rfl
    | cons c cs ih => exact fun s => ih _
  cases cs with
  | nil => cases h; rfl
  | cons c cs =>
    obtain ⟨indent, -, h⟩ := bind_eq_ok h
    obtain ⟨first, -, h⟩ := bind_eq_ok h
    cases h
    rw [fold]
    cases first with
    | true => rfl
    | false => rfl

theorem trailSheet_pos {sheet' : Sheet} {indent : Text} {c : Comment}
    (h : press.trailSheet indent sheet c = .ok sheet') : sheet'.pos = sheet.pos := by
  obtain ⟨follows, -, h⟩ := bind_eq_ok h
  dsimp only at h
  split at h
  · split at h
    · obtain ⟨resume, -, h⟩ := bind_eq_ok h
      cases h
      rfl
    · cases h
      rfl
  · split at h
    · cases h
      rfl
    · cases h
      rfl

theorem trailAll_pos {sheet' : Sheet} {indent : Text} {cs : List Comment}
    (h : cs.foldlM (press.trailSheet indent) sheet = .ok sheet') : sheet'.pos = sheet.pos :=
  foldlM_keeps (I := fun s => s.pos = sheet.pos) (fun _ _ _ _ same step =>
    (trailSheet_pos step).trans same) rfl h

theorem strike_cut {sheet' : Sheet} {stroke : Stroke} (cut : Cut press.source sheet.pos)
    (h : press.strike sheet stroke = .ok sheet') : Cut press.source sheet'.pos := by
  cases stroke with
  | start lo comments =>
    obtain ⟨mid, flushed, led⟩ := bind_eq_ok h
    rw [leadSheet_pos led]
    exact flushSheet_cut cut flushed
  | reach target => exact flushSheet_cut cut h
  | inside opened ends => exact flushSheet_cut cut h
  | behind anchor margin comments =>
    cases anchor with
    | none =>
      obtain ⟨indent, -, trailed⟩ := bind_eq_ok h
      rw [trailAll_pos trailed]
      exact cut
    | some offset =>
      obtain ⟨mid, flushed, h⟩ := bind_eq_ok h
      obtain ⟨indent, -, trailed⟩ := bind_eq_ok h
      rw [trailAll_pos trailed]
      exact flushSheet_cut cut flushed
  | put t =>
    cases h
    exact cut

theorem strikeAll_cut {sheet' : Sheet} {strokes : List Stroke} (cut : Cut press.source sheet.pos)
    (h : strokes.foldlM press.strike sheet = .ok sheet') : Cut press.source sheet'.pos :=
  foldlM_keeps (I := fun s => Cut press.source s.pos) (fun _ _ _ _ cut step => strike_cut cut step)
    cut h

theorem strike_middle {U M M' V : List Stroke}
    (same : ∀ sheet, Cut press.source sheet.pos →
      M'.foldlM press.strike sheet = M.foldlM press.strike sheet)
    (cut : Cut press.source sheet.pos) :
    (U ++ M' ++ V).foldlM press.strike sheet = (U ++ M ++ V).foldlM press.strike sheet := by
  rw [List.foldlM_append, List.foldlM_append, List.foldlM_append, List.foldlM_append]
  cases front : U.foldlM press.strike sheet with
  | error e => rfl
  | ok s =>
    show (M'.foldlM press.strike s >>= _) = (M.foldlM press.strike s >>= _)
    rw [same s (strikeAll_cut cut front)]

theorem strike_congr {doc doc' : Document} {source : Text} (ending : doc'.eol = doc.eol)
    (revisions : revisionsOf doc' = revisionsOf doc) :
    (Press.of doc' source).strike = (Press.of doc source).strike := by
  unfold Press.of
  rw [revisions]
  generalize revisionsOf doc = rs
  have eols : eol ⟨doc', source, source.bytes, rs⟩ = eol ⟨doc, source, source.bytes, rs⟩ :=
    congrArg LineEnding.text ending
  have each : trailSheet ⟨doc', source, source.bytes, rs⟩ =
      trailSheet ⟨doc, source, source.bytes, rs⟩ := by
    funext indent sheet c
    simp only [trailSheet, eols]
    rfl
  funext sheet stroke
  cases stroke with
  | start lo comments =>
    cases comments with
    | nil => rfl
    | cons c cs =>
      simp only [strike, leadSheet, eols]
      rfl
  | reach target => rfl
  | inside opened ends => rfl
  | behind anchor margin comments =>
    cases anchor with
    | some offset =>
      simp only [strike, each]
      rfl
    | none =>
      simp only [strike, each]
      rfl
  | put t => rfl

end Press
end Quell
