import Quell.Proofs.Print.Sheet

/-!
The rest of a page.

Once something that can be seen is on a sheet, later strokes do not read what stands above it
(`strike_below`). So what is printed from the start of a node on is the same below any text:
`Opens.run`.
-/
namespace Quell

open Text

namespace Sheet

def under (sheet : Sheet) (above : Text) : Sheet := { sheet with text := above ++ sheet.text }

def Headed (sheet : Sheet) (c : Char) : Prop :=
  Page.isSpaceOrTab c = false ∧ ∃ w, sheet.text = c :: w

variable {sheet : Sheet} {c : Char} (above : Text)

theorem under_add (t : Text) : (sheet.add t).under above = (sheet.under above).add t := by
  simp [under, add, List.append_assoc]

theorem Headed.append (headed : sheet.Headed c) {s : Sheet} {t : Text} (h : s.text = sheet.text ++ t) :
    s.Headed c := by
  obtain ⟨seen, w, hw⟩ := headed
  exact ⟨seen, w ++ t, by rw [h, hw, List.cons_append]⟩

theorem Headed.add (headed : sheet.Headed c) (t : Text) : (sheet.add t).Headed c := headed.append rfl

theorem under_trimEnd (headed : sheet.Headed c) :
    (sheet.under above).trimEnd = sheet.trimEnd.under above := by
  obtain ⟨seen, w, hw⟩ := headed
  have stops : sheet.text.reverse.dropWhile Page.isSpaceOrTab ≠ [] := by
    rw [ne_eq, List.dropWhile_eq_nil_iff]
    intro all
    rw [all c (by rw [hw]; simp)] at seen
    cases seen
  unfold trimEnd under
  dsimp only
  rw [List.reverse_append, List.dropWhile_append, if_neg (by simpa using stops),
    List.reverse_append, List.reverse_reverse]

theorem Headed.trimEnd (headed : sheet.Headed c) : sheet.trimEnd.Headed c := by
  obtain ⟨seen, w, hw⟩ := headed
  obtain ⟨run, spelled, blank⟩ := exists_run sheet.text
  rw [hw] at spelled
  refine ⟨seen, ?_⟩
  unfold Sheet.trimEnd
  rw [hw]
  cases kept : ((c :: w).reverse.dropWhile Page.isSpaceOrTab).reverse with
  | nil =>
    rw [kept, List.nil_append] at spelled
    rw [blank c (by rw [← spelled]; exact List.mem_cons_self)] at seen
    cases seen
  | cons d v =>
    rw [kept, List.cons_append] at spelled
    obtain ⟨rfl, -⟩ := List.cons.inj spelled
    exact ⟨v, rfl⟩

end Sheet

namespace Press

variable {press : Press} {sheet : Sheet} {c : Char} (above : Text)

def Below (above : Text) (c : Char) (a b : Sheet) : Prop := b = a.under above ∧ a.Headed c

theorem copySheet_under (target : Nat) :
    press.copySheet (sheet.under above) target =
      (press.copySheet sheet target).map (·.under above) := by
  unfold copySheet
  change (press.slice sheet.pos target >>= _) = _
  cases press.slice sheet.pos target with
  | error e => rfl
  | ok t =>
    show Except.ok _ = Except.ok _
    simp [Sheet.under, List.append_assoc]

theorem reviseSheet_under (r : Revision) :
    press.reviseSheet (sheet.under above) r = (press.reviseSheet sheet r).map (·.under above) := by
  unfold reviseSheet
  rw [copySheet_under]
  cases press.copySheet sheet r.lo with
  | error e => rfl
  | ok s =>
    show Except.ok _ = Except.ok _
    simp [Sheet.under, List.append_assoc]

theorem reviseAll_under (rs : List Revision) :
    rs.foldlM press.reviseSheet (sheet.under above) =
      (rs.foldlM press.reviseSheet sheet).map (·.under above) :=
  (foldlM_map (fun _ r => (reviseSheet_under above r).symm) sheet rs).symm

theorem flushSheet_under (target : Nat) :
    press.flushSheet (sheet.under above) target =
      (press.flushSheet sheet target).map (·.under above) := by
  unfold flushSheet
  dsimp only
  change (if min target press.size ≤ sheet.pos then _ else
    (press.due sheet.pos (min target press.size)).foldlM press.reviseSheet (sheet.under above) >>=
      _) = _
  split
  · rfl
  · rw [reviseAll_under]
    cases (press.due sheet.pos (min target press.size)).foldlM press.reviseSheet sheet with
    | error e => rfl
    | ok s => exact copySheet_under above _

theorem copySheet_grows {target : Nat} {s : Sheet} (h : press.copySheet sheet target = .ok s) :
    ∃ w, s.text = sheet.text ++ w := by
  obtain ⟨t, -, made⟩ := bind_eq_ok h
  cases made
  exact ⟨t, rfl⟩

theorem reviseAll_grows {rs : List Revision} {s : Sheet}
    (h : rs.foldlM press.reviseSheet sheet = .ok s) : ∃ w, s.text = sheet.text ++ w := by
  refine foldlM_keeps (I := fun t => ∃ w, t.text = sheet.text ++ w) ?_
    ⟨[], (List.append_nil _).symm⟩ h
  rintro r - mid next ⟨w, grown⟩ step
  obtain ⟨copied, copy, made⟩ := bind_eq_ok step
  cases made
  obtain ⟨v, more⟩ := copySheet_grows copy
  exact ⟨w ++ (v ++ r.text), by rw [more, grown]; simp [List.append_assoc]⟩

theorem flushSheet_grows {target : Nat} {s : Sheet} (h : press.flushSheet sheet target = .ok s) :
    ∃ w, s.text = sheet.text ++ w := by
  unfold flushSheet at h
  dsimp only at h
  split at h
  · cases h
    exact ⟨[], (List.append_nil _).symm⟩
  · obtain ⟨mid, revised, copied⟩ := bind_eq_ok h
    obtain ⟨w, hw⟩ := reviseAll_grows revised
    obtain ⟨v, hv⟩ := copySheet_grows copied
    exact ⟨w ++ v, by rw [hv, hw, List.append_assoc]⟩

theorem flush_below (headed : sheet.Headed c) (target : Nat) :
    Both (Below above c) (press.flushSheet sheet target)
      (press.flushSheet (sheet.under above) target) := by
  rw [flushSheet_under]
  cases flushed : press.flushSheet sheet target with
  | error e => exact .error e
  | ok s =>
    obtain ⟨w, hw⟩ := flushSheet_grows flushed
    exact .ok ⟨rfl, headed.append hw⟩

theorem Below.add {a b : Sheet} (h : Below above c a b) (t : Text) :
    Below above c (a.add t) (b.add t) := by
  obtain ⟨rfl, headed⟩ := h
  exact ⟨(Sheet.under_add above t).symm, headed.add t⟩

theorem lead_below (headed : sheet.Headed c) (lo : Nat) (cs : List Comment) :
    Both (Below above c) (press.leadSheet sheet lo cs) (press.leadSheet (sheet.under above) lo cs) := by
  have fold : ∀ (cs : List Comment) (indent : Text) {a b : Sheet}, Below above c a b →
      Below above c (cs.foldl (fun s c => ((s.add c.render).add press.eol).add indent) a)
        (cs.foldl (fun s c => ((s.add c.render).add press.eol).add indent) b) := by
    intro cs indent
    induction cs with
    | nil => exact fun h => h
    | cons c cs ih => exact fun h => ih (((h.add above _).add above _).add above _)
  cases cs with
  | nil => exact .ok ⟨rfl, headed⟩
  | cons _ cs =>
    refine .bind_same _ fun indent => .bind_same _ fun first => .ok (fold _ indent ?_)
    cases first with
    | true => exact ⟨rfl, headed⟩
    | false =>
      have trimmed : Below above c sheet.trimEnd (sheet.under above).trimEnd :=
        ⟨Sheet.under_trimEnd above headed, headed.trimEnd⟩
      exact (trimmed.add above _).add above _

theorem trail_below {a b : Sheet} (h : Below above c a b) (indent : Text) (k : Comment) :
    Both (Below above c) (press.trailSheet indent a k) (press.trailSheet indent b k) := by
  have pos : b.pos = a.pos := by rw [h.1]; rfl
  unfold trailSheet
  rw [pos]
  refine .bind_same _ fun follows => ?_
  dsimp only
  split
  · have put := ((h.add above press.eol).add above indent).add above k.render
    have stays : (((b.add press.eol).add indent).add k.render).pos =
        (((a.add press.eol).add indent).add k.render).pos := pos
    split
    · rw [stays]
      exact .bind_same _ fun resume => .ok ((put.add above _).add above _)
    · exact .ok put
  · split
    · exact .ok (h.add above _)
    · exact .ok ((h.add above _).add above _)

theorem strike_below {a b : Sheet} (h : Below above c a b) (stroke : Stroke) :
    Both (Below above c) (press.strike a stroke) (press.strike b stroke) := by
  obtain ⟨rfl, headed⟩ := h
  have trailing : ∀ (margin : Margin) (cs : List Comment) {a b : Sheet}, Below above c a b →
      Both (Below above c)
        (press.marginText margin >>= fun indent => cs.foldlM (press.trailSheet indent) a)
        (press.marginText margin >>= fun indent => cs.foldlM (press.trailSheet indent) b) := by
    intro margin cs a b h
    refine .bind_same _ fun indent => Both.foldlM (Q := Eq) ?_ (List.forall₂_refl cs) h
    rintro a b k _ h rfl
    exact trail_below above h indent k
  cases stroke with
  | start lo comments =>
    refine (flush_below above headed lo).bind fun s s' k => ?_
    obtain ⟨rfl, headed⟩ := k
    exact lead_below above headed lo comments
  | reach target => exact flush_below above headed target
  | inside opened ends => exact flush_below above headed _
  | behind anchor margin comments =>
    cases anchor with
    | none => exact trailing margin comments ⟨rfl, headed⟩
    | some offset =>
      exact (flush_below above headed offset).bind fun _ _ k => trailing margin comments k
  | put t => exact .ok (Below.add above ⟨rfl, headed⟩ t)

theorem strikeAll_below {a b : Sheet} (h : Below above c a b) (strokes : List Stroke) :
    Both (Below above c) (strokes.foldlM press.strike a) (strokes.foldlM press.strike b) := by
  refine Both.foldlM (Q := Eq) ?_ (List.forall₂_refl strokes) h
  rintro a b s _ h rfl
  exact strike_below above h s

theorem slice_head {source a b t : Text} {n : Nat} (split : source = a ++ c :: b)
    (h : slice? (bytes a) n source = some t) (lt : bytes a < n) : ∃ w, t = c :: w := by
  obtain ⟨a', b', same, start, stop⟩ := slice?_eq_some.mp h
  rw [split, List.append_assoc] at same
  obtain ⟨-, tail⟩ := append_inj_bytes same start.symm
  cases t with
  | nil =>
    rw [bytes_nil] at stop
    omega
  | cons d w =>
    obtain ⟨rfl, -⟩ := List.cons.inj tail
    exact ⟨w, rfl⟩

theorem flush_head {a b : Text} {target : Nat} (fair : press.Fair)
    (split : press.source = a ++ c :: b) (seen : Page.isSpaceOrTab c = false)
    (free : ∀ r ∈ press.revisions, r.lo ≠ bytes a) (cut : Cut press.source target)
    (lt : bytes a < target) : ∃ s : Sheet, s.Headed c ∧ s.pos = target ∧
      ∀ above, press.flushSheet ⟨above, bytes a⟩ target = .ok (s.under above) := by
  have start : Cut press.source (bytes a) := ⟨a, c :: b, split, rfl⟩
  have head : ∀ {n : Nat} {t : Text}, bytes a < n → slice? (bytes a) n press.source = some t →
      ∃ w, t = c :: w := fun lt h => slice_head split h lt
  obtain ⟨t, flushed⟩ : ∃ t, press.flushSheet ⟨[], bytes a⟩ target = .ok ⟨t, target⟩ := by
    obtain ⟨t, h⟩ := @flushSheet_ok press ⟨[], bytes a⟩ target fair start cut
    exact ⟨t, by rw [h, Nat.max_eq_right (Nat.le_of_lt lt)]; rfl⟩
  refine ⟨⟨t, target⟩, ⟨seen, ?_⟩, rfl, fun above => ?_⟩
  · have go := @flushSheet_go press ⟨[], bytes a⟩ target fair cut lt
    rw [flushed] at go
    obtain ⟨mid, revised, copied⟩ := bind_eq_ok go.symm
    dsimp only at revised
    cases due : press.due (bytes a) target with
    | nil =>
      rw [due] at revised
      cases revised
      obtain ⟨w, copy, made⟩ := bind_eq_ok copied
      obtain ⟨x, hx⟩ := start.slice cut (Nat.le_of_lt lt)
      rw [slice_eq hx] at copy
      cases copy
      cases made
      exact head lt hx
    | cons r rs =>
      have mem : r ∈ press.due (bytes a) target := by rw [due]; exact List.mem_cons_self
      obtain ⟨known, low, -⟩ := mem_due mem
      have ahead : bytes a < r.lo := Nat.lt_of_le_of_ne low (Ne.symm (free r known))
      obtain ⟨x, hx⟩ := start.slice (fair.each r known).2.1 low
      obtain ⟨w, rfl⟩ := head ahead hx
      rw [due, List.foldlM_cons] at revised
      obtain ⟨first, revise, rest⟩ := bind_eq_ok revised
      have put : press.reviseSheet ⟨[], bytes a⟩ r = .ok ⟨c :: w ++ r.text, r.hi⟩ := by
        unfold reviseSheet
        rw [copySheet_eq hx]
        rfl
      cases put.symm.trans revise
      obtain ⟨v, hv⟩ := reviseAll_grows rest
      obtain ⟨u, hu⟩ := copySheet_grows copied
      exact ⟨w ++ r.text ++ v ++ u, by rw [hv] at hu; simpa using hu⟩
  · have moved := @flushSheet_under press ⟨[], bytes a⟩ above target
    rw [flushed] at moved
    rw [← (by simp [Sheet.under] : Sheet.under ⟨[], bytes a⟩ above = ⟨above, bytes a⟩)]
    exact moved

theorem headed_onward {go : Sheet → Except Fault Sheet} {mid s : Sheet} {above : Text}
    (below : ∀ above {x y : Sheet}, Below above c x y → Both (Below above c) (go x) (go y))
    (headed : mid.Headed c) (ran : go (mid.under above) = .ok s) :
    ∃ w, s.text = above ++ c :: w ∧
      ∀ other, go (mid.under other) = .ok ⟨other ++ c :: w, s.pos⟩ := by
  have here := below above ⟨rfl, headed⟩
  rw [ran] at here
  obtain ⟨m, made, rfl, -, w, text⟩ : ∃ m, go mid = .ok m ∧ s = m.under above ∧ m.Headed c := by
    generalize go mid = x at here
    cases here with
    | ok h => exact ⟨_, rfl, h⟩
  refine ⟨w, congrArg (above ++ ·) text, fun other => ?_⟩
  have there := below other ⟨rfl, headed⟩
  rw [made] at there
  generalize go (mid.under other) = y at there
  cases there with
  | ok h =>
    rw [h.1, Sheet.under, text]
    rfl

inductive Opens (lo : Nat) : List Stroke → Prop where
  | skip {n : Nat} {strokes : List Stroke} : n ≤ lo → Opens lo strokes →
      Opens lo (.start n [] :: strokes)
  | start {n : Nat} {cs : List Comment} {strokes : List Stroke} : lo < n →
      Opens lo (.start n cs :: strokes)
  | reach {n : Nat} {strokes : List Stroke} : lo < n → Opens lo (.reach n :: strokes)
  | inside {n : Nat} {ends : List Nat} {strokes : List Stroke} : lo < ends.foldl max n →
      Opens lo (.inside (some n) ends :: strokes)

/-- What strokes print from the start of a node on is the same below any text, and begins with the
first character of the node. -/
theorem Opens.run {a b : Text} {strokes : List Stroke} (opens : Opens (bytes a) strokes)
    (fair : press.Fair) (split : press.source = a ++ c :: b) (seen : Page.isSpaceOrTab c = false)
    (free : ∀ r ∈ press.revisions, r.lo ≠ bytes a) (fits : ∀ s ∈ strokes, s.Fits press.source)
    {above : Text} {s : Sheet} (ran : strokes.foldlM press.strike ⟨above, bytes a⟩ = .ok s) :
    ∃ w, s.text = above ++ c :: w ∧ ∀ other,
      strokes.foldlM press.strike ⟨other, bytes a⟩ = .ok ⟨other ++ c :: w, s.pos⟩ := by
  -- the first stroke that copies, and whatever comes behind it
  have onward : ∀ {target : Nat} (go : Sheet → Except Fault Sheet), Cut press.source target →
      bytes a < target →
      (∀ above {x y : Sheet}, Below above c x y → Both (Below above c) (go x) (go y)) →
      (press.flushSheet ⟨above, bytes a⟩ target >>= go) = .ok s →
      ∃ w, s.text = above ++ c :: w ∧ ∀ other,
        (press.flushSheet ⟨other, bytes a⟩ target >>= go) = .ok ⟨other ++ c :: w, s.pos⟩ := by
    intro target go cut lt below ran
    obtain ⟨mid, headed, -, flushed⟩ := flush_head fair split seen free cut lt
    rw [flushed] at ran
    obtain ⟨w, text, all⟩ := headed_onward below headed ran
    refine ⟨w, text, fun other => ?_⟩
    rw [flushed]
    exact all other
  induction opens with
  | @skip n strokes le _ ih =>
    have stay : ∀ t, press.strike ⟨t, bytes a⟩ (.start n []) = .ok ⟨t, bytes a⟩ := by
      intro t
      rw [strike, flushSheet_stay le]
      rfl
    have ran : strokes.foldlM press.strike ⟨above, bytes a⟩ = .ok s := by
      rw [List.foldlM_cons, stay] at ran
      exact ran
    obtain ⟨w, text, all⟩ := ih (fun s hs => fits s (List.mem_cons_of_mem _ hs)) ran
    refine ⟨w, text, fun other => ?_⟩
    rw [List.foldlM_cons, stay]
    exact all other
  | @start n cs strokes lt =>
    have cut : Cut press.source n := fits _ List.mem_cons_self
    have next := onward (fun x => press.leadSheet x n cs >>= strokes.foldlM press.strike) cut lt
      fun above x y h => by
        obtain ⟨rfl, headed⟩ := h
        exact (lead_below above headed n cs).bind fun _ _ k => strikeAll_below above k strokes
    simp only [List.foldlM_cons, strike, bind_assoc] at ran ⊢
    exact next ran
  | @reach n strokes lt =>
    have cut : Cut press.source n := fits _ List.mem_cons_self
    rw [List.foldlM_cons] at ran
    exact onward (strokes.foldlM press.strike) cut lt
      (fun above _ _ h => strikeAll_below above h strokes) ran
  | @inside n ends strokes lt =>
    obtain ⟨opened, closed⟩ : (∀ o ∈ some n, Cut press.source o) ∧ ∀ e ∈ ends, Cut press.source e :=
      fits _ List.mem_cons_self
    have cut : Cut press.source (ends.foldl max n) := foldl_max_keeps (opened n rfl) closed
    rw [List.foldlM_cons] at ran
    exact onward (strokes.foldlM press.strike) cut lt
      (fun above _ _ h => strikeAll_below above h strokes) ran

end Press
end Quell
