import Quell.Proofs.Annotate.Again
import Quell.Proofs.Annotate.Clear
import Quell.Proofs.Print.Whole

/-!
Spans that hold their tokens.

Where offsets are counted right, a node starts and ends with something that can be seen, and the
comments of a node end before anything behind it starts. Calls keep this (`Calls.snug`), and they put
leading comments only in front of nodes that are the outermost ones of their line
(`Calls.anchored`).
-/
namespace Quell

open Text Relation

def InkAt (source : Text) (n : Nat) : Prop :=
  ∃ a c b, source = a ++ c :: b ∧ bytes a = n ∧ isBlank c = false

def InkBefore (source : Text) (n : Nat) : Prop :=
  ∃ a b, source = a ++ b ∧ bytes a = n ∧ allBlank (lastLine a) = false

namespace Document

variable {source : Text} {doc doc' : Document} {o : AnnotateOptions} {rule : Text}

/-- A node below the root that is neither text nor empty, with its span. -/
structure Token (doc : Document) (id : NodeId) (s : Span) : Prop where
  reached : doc.Reaches id
  proper : id ≠ root
  solid : doc.text? id = none
  full : doc.kind id ≠ .emptyHole
  span : doc.span id = some s

/-- Spans hold what they are for. -/
structure Snug (source : Text) (doc : Document) : Prop where
  top : ∃ u, doc.span root = some u ∧ u.lo = 0
  starts : ∀ id s, doc.Token id s → InkAt source s.lo
  ends : ∀ id s, doc.Token id s → InkBefore source s.hi
  wide : ∀ id s, doc.Token id s → s.lo < s.hi
  /-- Comments belong to nodes with spans. -/
  owned : ∀ id slot r, doc.RemarkIn id slot r → doc.span id ≠ none
  remarkEnds : ∀ id slot r, doc.RemarkIn id slot r → InkBefore source r.hi
  /-- No comment starts where a node does. -/
  distinct : ∀ id s j slot r, doc.Token id s → doc.RemarkIn j slot r → r.lo ≠ s.lo
  /-- What starts behind a node starts behind the comments behind and in it. -/
  behind : ∀ id s slot r j t, id ≠ root → doc.span id = some s → doc.RemarkIn id slot r →
    slot ≠ .leading → doc.Token j t → s.hi ≤ t.lo → r.hi ≤ t.lo
  /-- What stands for nothing in a hole is alone there, and starts on the line of the brace. -/
  slots : ∀ p c s t, doc.Reaches p → doc.Holds p c → doc.kind c = .emptyHole →
    doc.span p = some s → doc.span c = some t →
    doc.kind p = .hole ∧ doc.children p = [c] ∧ s.lo < t.lo ∧ s.startLine = t.startLine

theorem Edit.token (edit : Edit o rule doc doc') (sound : doc.Sound source) {id : NodeId} {s : Span}
    (token : doc'.Token id s) : doc.Token id s := by
  obtain ⟨reached, proper, solid, full, span⟩ := token
  have frame := (edit.frame sound).1
  have lt : id < doc.nodes.size := by
    by_contra out
    exact (edit.new_spanned sound (Nat.le_of_not_lt out) span).1 solid
  rw [frame.text?_eq lt] at solid
  rw [(frame.same id lt).1] at full
  rw [(frame.same id lt).2] at span
  exact ⟨frame.back id reached lt, proper, solid, full, span⟩

/-- What holds an old node held it before. -/
theorem Edit.holds_old (edit : Edit o rule doc doc') (sound : doc.Sound source) {q c : NodeId}
    (lt : c < doc.nodes.size) (hold : doc'.Holds q c) : doc.Holds q c := by
  have splice : ∀ {p : NodeId} {A B N C : List NodeId}, doc.Splice doc' p A B N C → doc.Holds q c := by
    intro p A B N C splice
    rcases Nat.lt_or_ge q doc.nodes.size with old | new
    · exact ((splice.holds_old sound.linked old lt).mp hold).1
    · exact absurd hold (splice.not_holds_old new lt)
  have remark : ∀ {id : NodeId} {slot : Slot} {cs : List Comment},
      (doc.update id (·.setComments slot cs)).Holds q c → doc.Holds q c := by
    intro id slot cs hold
    unfold Holds at hold ⊢
    rwa [(tree_setComments q).2.2.1] at hold
  cases edit with
  | extend => exact remark hold
  | beside =>
    rw [appendComment_eq] at hold
    exact remark hold
  | behind =>
    rw [appendComment_eq] at hold
    exact remark hold
  | fill reached => exact splice (addPlaceholder_spec (sound.reaches_lt reached)).1
  | cut _ _ _ _ recut => exact splice recut.splice
  | among _ _ _ _ _ _ _ _ noted => exact splice noted.splice
  | last _ _ _ _ _ noted => exact splice noted.splice

theorem Edit.children_eq (edit : Edit o rule doc doc') (sound : doc.Sound source) {id : NodeId}
    (lt : id < doc.nodes.size) (block : doc.kind id ≠ .block)
    (plain : (doc.kind id).hasMarkupChildren = false) : doc'.children id = doc.children id := by
  have other : ∀ {q : NodeId}, (doc.kind q).hasMarkupChildren = true → id ≠ q := by
    rintro q markup rfl
    rw [plain] at markup
    cases markup
  cases edit with
  | extend => exact (tree_setComments id).2.2.1
  | beside =>
    rw [appendComment_eq]
    exact (tree_setComments id).2.2.1
  | behind =>
    rw [appendComment_eq]
    exact (tree_setComments id).2.2.1
  | @fill q reached kind =>
    refine (addPlaceholder_spec (sound.reaches_lt reached)).1.children_rest lt ?_
    rintro rfl
    exact block kind
  | cut _ markup _ _ recut => exact recut.splice.children_rest lt (other markup)
  | among _ markup _ _ _ _ _ _ noted => exact noted.splice.children_rest lt (other markup)
  | last _ markup _ _ _ noted => exact noted.splice.children_rest lt (other markup)

theorem Edit.slots (edit : Edit o rule doc doc') (sound : doc.Sound source) (snug : doc.Snug source)
    {p c : NodeId} {s t : Span} (reached : doc'.Reaches p) (hold : doc'.Holds p c)
    (kind : doc'.kind c = .emptyHole) (above : doc'.span p = some s) (span : doc'.span c = some t) :
    doc'.kind p = .hole ∧ doc'.children p = [c] ∧ s.lo < t.lo ∧ s.startLine = t.startLine := by
  have frame := (edit.frame sound).1
  have sound' := edit.sound sound
  have lt : c < doc.nodes.size := by
    by_contra out
    refine (edit.new_spanned sound (Nat.le_of_not_lt out) span).1 ?_
    unfold text?
    rw [kind]
    rfl
  have proper : c ≠ root := by
    rintro rfl
    rw [sound'.root_kind] at kind
    cases kind
  rw [(frame.same c lt).1] at kind
  rw [(frame.same c lt).2] at span
  -- the hole that held it still does
  have was := frame.back c (reached.child hold) lt
  obtain rfl | ⟨q, within, held⟩ := ReflTransGen.cases_tail was
  · exact absurd rfl proper
  have valid := sound.reaches_lt within
  obtain ⟨u, hu, -⟩ := sound.parent_span within held span
  obtain ⟨hole, only, low, line⟩ := snug.slots q c u t within held kind hu span
  have same : doc'.children q = doc.children q := by
    refine edit.children_eq sound valid ?_ ?_ <;> rw [hole]
    · exact nofun
    · rfl
  have still : doc'.Holds q c := by
    unfold Holds
    rw [same]
    exact held
  cases sound'.linked.parent_unique still hold
  rw [(frame.same p valid).2, hu] at above
  cases above
  rw [(frame.same p valid).1, same]
  exact ⟨hole, only, low, line⟩

theorem Edit.snug (edit : Edit o rule doc doc') (sound : doc.Sound source) (snug : doc.Snug source) :
    doc'.Snug source := by
  have frame := (edit.frame sound).1
  refine ⟨?_, ?_, ?_, ?_, ?_, ?_, ?_, ?_, ?_⟩
  · rw [(frame.same root sound.root_lt).2]
    exact snug.top
  · exact fun id s token => snug.starts id s (edit.token sound token)
  · exact fun id s token => snug.ends id s (edit.token sound token)
  · exact fun id s token => snug.wide id s (edit.token sound token)
  · intro id slot r remark
    have old := edit.remarkIn sound remark
    rw [(frame.same id (sound.reaches_lt old.1)).2]
    exact snug.owned id slot r old
  · exact fun id slot r remark => snug.remarkEnds id slot r (edit.remarkIn sound remark)
  · exact fun id s j slot r token remark =>
      snug.distinct id s j slot r (edit.token sound token) (edit.remarkIn sound remark)
  · intro id s slot r j t proper span remark ne token le
    have old := edit.remarkIn sound remark
    rw [(frame.same id (sound.reaches_lt old.1)).2] at span
    exact snug.behind id s slot r j t proper span old ne (edit.token sound token) le
  · exact fun p c s t reached hold kind above span => edit.slots sound snug reached hold kind above span

structure Anchored (doc : Document) : Prop where
  top : inserted (doc.node root).leading = []
  below : ∀ p c, doc.Reaches p → doc.Holds p c → inserted (doc.node c).leading ≠ [] →
    p = root ∨ ∀ s t, doc.span p = some s → doc.span c = some t → s.startLine ≠ t.startLine

/-- Other comments at a node, if none that is put in comes to lead it. -/
theorem Anchored.setComments (anchored : doc.Anchored) {id : NodeId} {slot : Slot}
    {cs : List Comment} (valid : id < doc.nodes.size)
    (kept : slot = .leading → inserted cs ≠ [] → inserted (doc.node id).leading ≠ [] ∨
      id ≠ root ∧ ∀ p, doc.Reaches p → doc.Holds p id → p = root ∨
        ∀ s t, doc.span p = some s → doc.span id = some t → s.startLine ≠ t.startLine) :
    (doc.update id (·.setComments slot cs)).Anchored := by
  have leading : ∀ j, inserted ((doc.update id (·.setComments slot cs)).node j).leading ≠ [] →
      inserted (doc.node j).leading ≠ [] ∨ j = id ∧ slot = .leading ∧ inserted cs ≠ [] := by
    intro j h
    have comments : ((doc.update id (·.setComments slot cs)).node j).leading =
        if j = id ∧ .leading = slot then cs else (doc.node j).leading :=
      comments_update valid j .leading
    rw [comments] at h
    split at h
    next here => exact .inr ⟨here.1, here.2.symm, h⟩
    next => exact .inl h
  constructor
  · by_contra h
    rcases leading root h with old | ⟨rfl, rfl, new⟩
    · exact old anchored.top
    · rcases kept rfl new with old | ⟨ne, -⟩
      · exact old anchored.top
      · exact ne rfl
  · intro p c reached hold h
    rw [(tree_setComments p).2.1, (tree_setComments c).2.1]
    replace reached : doc.Reaches p :=
      (reaches_of_same fun j => (tree_setComments j).2.2.1).mp reached
    unfold Holds at hold
    rw [(tree_setComments p).2.2.1] at hold
    rcases leading c h with old | ⟨rfl, rfl, new⟩
    · exact anchored.below p c reached hold old
    · rcases kept rfl new with old | ⟨-, place⟩
      · exact anchored.below p c reached hold old
      · exact place p reached hold

/-- Another child list. -/
theorem Anchored.splice (anchored : doc.Anchored) {q : NodeId} {A B N C : List NodeId}
    (splice : doc.Splice doc' q A B N C) (sound : doc.Sound source) (sound' : doc'.Sound source)
    (new : ∀ j s, doc.nodes.size ≤ j → doc'.span j = some s → doc'.text? j ≠ none) :
    doc'.Anchored := by
  constructor
  · have same : (doc'.node root).leading = (doc.node root).leading :=
      (splice.content sound.root_lt).2.2 .leading
    rw [same]
    exact anchored.top
  · intro p c reached hold h
    rcases Nat.lt_or_ge c doc.nodes.size with lt | ge
    · have old : p < doc.nodes.size := by
        by_contra out
        exact splice.not_holds_old (Nat.le_of_not_lt out) lt hold
      have same : (doc'.node c).leading = (doc.node c).leading := (splice.content lt).2.2 .leading
      rw [same] at h
      rw [(splice.content old).2.1, (splice.content lt).2.1]
      exact anchored.below p c (splice.reaches_old sound.linked reached old).1
        ((splice.holds_old sound.linked old lt).mp hold).1 h
    · refine .inr fun s t _ span => ?_
      obtain ⟨value, text⟩ := Option.ne_none_iff_exists'.mp (new c t ge span)
      have silent : (doc'.node c).leading = [] :=
        ((sound'.each c (reached.child hold)).text value text).2.1 .leading
      rw [silent] at h
      exact absurd rfl h

theorem inserted_merge {cs : List Comment} {c c' : Comment} (merged : c.merge rule = (c', .merged))
    (h : inserted (cs ++ [c']) ≠ []) : inserted (cs ++ [c]) ≠ [] := by
  have span := (Comment.merge_parses merged).1
  unfold inserted at h ⊢
  rw [List.filter_append, ne_eq, List.append_eq_nil_iff] at h ⊢
  refine fun both => h ⟨both.1, ?_⟩
  have same : c'.isInserted = c.isInserted := by
    unfold Comment.isInserted
    rw [span]
  cases fresh : c.isInserted with
  | false => simp [same, fresh]
  | true => simp [fresh] at both

theorem Edit.anchored (edit : Edit o rule doc doc') (sound : doc.Sound source)
    (anchored : doc.Anchored) : doc'.Anchored := by
  have sound' := edit.sound sound
  have new : ∀ j s, doc.nodes.size ≤ j → doc'.span j = some s → doc'.text? j ≠ none :=
    fun j s ge span => (edit.new_spanned sound ge span).1
  cases edit with
  | @extend id slot cs c c' reached held merged =>
    refine anchored.setComments (sound.reaches_lt reached) ?_
    rintro rfl h
    left
    have leading : (doc.node id).leading = cs ++ [c] := held
    rw [leading]
    exact inserted_merge merged h
  | @beside line id p rest found aim place =>
    obtain ⟨reached, starts, q, link, -, outer⟩ := sound.first_spec found
    rw [appendComment_eq]
    refine anchored.setComments (sound.reaches_lt reached) fun _ _ => .inr ⟨starts.1, ?_⟩
    intro r _ hold
    cases ((sound.linked.agree r id).mp hold).symm.trans link
    rcases outer with rfl | ⟨u, hu, ne⟩
    · exact .inl rfl
    · obtain ⟨v, hv, line⟩ := starts.2.2
      refine .inr fun s t hs ht => ?_
      cases hu.symm.trans hs
      cases hv.symm.trans ht
      rw [line]
      exact ne
  | @behind block last reached kind found =>
    rw [appendComment_eq]
    exact anchored.setComments (sound.reaches_lt (sound.last_statement reached kind found).1) nofun
  | fill reached =>
    exact anchored.splice (addPlaceholder_spec (sound.reaches_lt reached)).1 sound sound' new
  | cut _ _ _ _ recut => exact anchored.splice recut.splice sound sound' new
  | among _ _ _ _ _ _ _ _ noted => exact anchored.splice noted.splice sound sound' new
  | last _ _ _ _ _ noted => exact anchored.splice noted.splice sound sound' new

/-- A document as it is read has no comments that were put in. -/
theorem WellFormed.anchored (wf : doc.WellFormed source) : doc.Anchored := by
  have none : ∀ id, doc.Reaches id → inserted (doc.node id).leading = [] := by
    intro id reached
    refine List.filter_eq_nil_iff.mpr fun c hc => ?_
    obtain ⟨-, s, span, -⟩ := (wf.each id reached).remarks .leading c hc
    simp [Comment.isInserted, span]
  exact ⟨none root .refl, fun p c reached hold h => absurd (none c (reached.child hold)) h⟩

/-- What every edit keeps holds after any run of calls. -/
theorem Calls.keeps {P : Document → Prop} (calls : doc.Calls doc') (sound : doc.Sound source)
    (start : P doc) (step : ∀ (o : AnnotateOptions) (rule : Text) (one two : Document),
      Edit o rule one two → one.Sound source → P one → P two) : P doc' := by
  have edits : ∀ (o : AnnotateOptions) (rule : Text) (one two : Document), Edits o rule one two →
      one.Sound source → P one → P two := by
    intro o rule one two h sound holds
    induction h with
    | refl => exact holds
    | tail before edit ih => exact step o rule _ _ edit (Edits.sound before sound) ih
  induction calls with
  | refl => exact start
  | @tail mid _ before called ih =>
    have sound' := (Calls.frame before sound).1
    obtain ⟨o, line, rule, r, call⟩ := called.call sound'
    exact edits o rule _ _ (call.settles sound').edits sound' ih

theorem Calls.snug (calls : doc.Calls doc') (sound : doc.Sound source) (snug : doc.Snug source) :
    doc'.Snug source :=
  calls.keeps sound snug fun _ _ _ _ edit => edit.snug

theorem Calls.anchored (calls : doc.Calls doc') (wf : doc.WellFormed source) : doc'.Anchored :=
  calls.keeps wf.sound wf.anchored fun _ _ _ _ edit => edit.anchored

section Test

theorem inkAt_iff {n : Nat} :
    ((slice? n (bytes source) source).bind List.head?).any (!isBlank ·) = true ↔
      InkAt source n := by
  rw [Option.any_eq_true]
  constructor
  · rintro ⟨c, found, seen⟩
    obtain ⟨t, slice, head⟩ := Option.bind_eq_some_iff.mp found
    obtain ⟨w, rfl⟩ := List.head?_eq_some_iff.mp head
    obtain ⟨a, b, split, start, -⟩ := slice?_eq_some.mp slice
    exact ⟨a, c, w ++ b, by rw [split]; simp, start, by simpa using seen⟩
  · rintro ⟨a, c, b, split, start, seen⟩
    have slice : slice? n (bytes source) source = some (c :: b) := by
      refine slice?_eq_some.mpr ⟨a, [], by rw [split, List.append_nil], start, ?_⟩
      rw [split, ← start]
      exact (bytes_append ..).symm
    exact ⟨c, by rw [slice]; rfl, by simp [seen]⟩

theorem inkBefore_iff {n : Nat} :
    (∃ t ∈ slice? 0 n source, allBlank (lastLine t) = false) ↔ InkBefore source n := by
  constructor
  · rintro ⟨t, slice, seen⟩
    obtain ⟨a, b, split, start, stop⟩ := slice?_eq_some.mp slice
    cases bytes_eq_zero.mp start
    exact ⟨t, b, by rw [split]; rfl, by omega, seen⟩
  · rintro ⟨a, b, split, rfl, seen⟩
    exact ⟨a, slice?_eq_some.mpr ⟨[], b, split, rfl, Nat.zero_add _⟩, seen⟩

instance (source : Text) (n : Nat) : Decidable (InkAt source n) := decidable_of_iff _ inkAt_iff

instance (source : Text) (n : Nat) : Decidable (InkBefore source n) :=
  decidable_of_iff _ inkBefore_iff

def FullAt (doc : Document) (id : NodeId) : Prop :=
  id ≠ root ∧ doc.text? id = none ∧ doc.kind id ≠ .emptyHole

def remarksIn (doc : Document) (id : NodeId) (slot : Slot) : List Span :=
  ((doc.node id).comments slot).filterMap (·.span)

def RemarkClear (doc : Document) (id : NodeId) (slot : Slot) (r t : Span) : Prop :=
  r.lo ≠ t.lo ∧ (id ≠ root → slot ≠ .leading → ∀ s ∈ doc.span id, s.hi ≤ t.lo → r.hi ≤ t.lo)

def RemarkFits (source : Text) (doc : Document) (id : NodeId) (slot : Slot) (r : Span) : Prop :=
  doc.span id ≠ none ∧ InkBefore source r.hi ∧
  ∀ j < doc.nodes.size, doc.FullAt j → ∀ t ∈ doc.span j, doc.RemarkClear id slot r t

def Snugly (source : Text) (doc : Document) : Prop :=
  (doc.span root).any (·.lo == 0) = true ∧
  (∀ id < doc.nodes.size, doc.FullAt id → ∀ s ∈ doc.span id,
    InkAt source s.lo ∧ InkBefore source s.hi ∧ s.lo < s.hi) ∧
  (∀ id < doc.nodes.size, ∀ slot ∈ [Slot.leading, .trailing, .inner], ∀ r ∈ doc.remarksIn id slot,
    doc.RemarkFits source id slot r) ∧
  ∀ p < doc.nodes.size, ∀ c ∈ doc.children p, doc.kind c = .emptyHole → ∀ s ∈ doc.span p,
    ∀ t ∈ doc.span c,
      doc.kind p = .hole ∧ doc.children p = [c] ∧ s.lo < t.lo ∧ s.startLine = t.startLine

instance (id : NodeId) : Decidable (doc.FullAt id) := inferInstanceAs (Decidable (_ ∧ _))

instance (id : NodeId) (slot : Slot) (r t : Span) : Decidable (doc.RemarkClear id slot r t) :=
  inferInstanceAs (Decidable (_ ∧ _))

instance (id : NodeId) (slot : Slot) (r : Span) : Decidable (doc.RemarkFits source id slot r) :=
  inferInstanceAs (Decidable (_ ∧ _))

instance : Decidable (doc.Snugly source) := inferInstanceAs (Decidable (_ ∧ _))

theorem lt_of_span {id : NodeId} {s : Span} (span : doc.span id = some s) : id < doc.nodes.size := by
  by_contra out
  rw [span_of_node (node_of_size_le doc (Nat.le_of_not_lt out))] at span
  cases span

theorem lt_of_remark {id : NodeId} {slot : Slot} {r : Span} (remark : doc.RemarkIn id slot r) :
    id < doc.nodes.size := by
  obtain ⟨-, c, mem, -⟩ := remark
  by_contra out
  rw [node_of_size_le doc (Nat.le_of_not_lt out)] at mem
  cases slot <;> cases mem

theorem snug_of_table (h : doc.Snugly source) : doc.Snug source := by
  obtain ⟨top, tokens, remarks, slots⟩ := h
  have each : ∀ id s, doc.Token id s → InkAt source s.lo ∧ InkBefore source s.hi ∧ s.lo < s.hi :=
    fun id s token => tokens id (lt_of_span token.span) ⟨token.proper, token.solid, token.full⟩ s
      token.span
  have fits : ∀ id slot r, doc.RemarkIn id slot r → doc.RemarkFits source id slot r := by
    intro id slot r remark
    refine remarks id (lt_of_remark remark) slot ?_ r (List.mem_filterMap.mpr remark.2)
    cases slot <;> decide
  have against : ∀ id slot r j t, doc.RemarkIn id slot r → doc.Token j t →
      doc.RemarkClear id slot r t :=
    fun id slot r j t remark token => (fits id slot r remark).2.2 j (lt_of_span token.span)
      ⟨token.proper, token.solid, token.full⟩ t token.span
  refine ⟨?_, fun id s token => (each id s token).1, fun id s token => (each id s token).2.1,
    fun id s token => (each id s token).2.2, fun id slot r remark => (fits id slot r remark).1,
    fun id slot r remark => (fits id slot r remark).2.1, ?_, ?_, ?_⟩
  · cases span : doc.span root with
    | none =>
      rw [span] at top
      cases top
    | some u =>
      rw [span] at top
      exact ⟨u, rfl, by simpa using top⟩
  · exact fun id s j slot r token remark => (against j slot r id s remark token).1
  · exact fun id s slot r j t proper span remark ne token =>
      (against id slot r j t remark token).2 proper ne s span
  · exact fun p c s t _ hold kind above span => slots p (lt_of_span above) c hold kind s above t span

end Test

end Document
end Quell
