import Quell.Grammar.Alphabet
import Quell.Proofs.Annotate.Comments

/-!
What annotating writes.

Every comment of an edited document was there before, is one that was there with a rule more, or is
one of three new ones. So a property of comments that merging keeps and the new ones have is kept by
every edit (`Edit.bears`) and by every run of edits with options and rules of a kind.
-/
namespace Quell

namespace Directive

open Text

theorem infix_of_mem_ruleList {value rule : Text} (h : rule ∈ ruleList value) : rule <:+: value := by
  obtain ⟨part, mem, rfl⟩ := List.mem_map.mp (List.mem_filter.mp h).1
  exact (infix_of_trim part).trans (infix_of_mem_splitOn mem)

theorem infix_ofBody (form : Form) (body : Text) :
    (∀ rule ∈ (ofBody form body).rules, rule <:+: body) ∧
      ∀ why ∈ (ofBody form body).explanation, why <:+: body := by
  unfold ofBody
  split
  · rename_i rules why found
    have split := (splitOnce?_eq_some found).1
    constructor
    · intro rule mem
      apply (infix_of_mem_ruleList (mem_distinct.mp mem)).trans
      exact ⟨[], separator ++ why, by rw [split]; simp⟩
    · intro text given
      dsimp only at given
      obtain ⟨e, -⟩ := Option.filter_eq_some_iff.mp given
      cases e
      apply (infix_of_trim why).trans
      exact ⟨rules ++ separator, [], by rw [split]; simp⟩
  · exact ⟨fun rule mem => infix_of_mem_ruleList (mem_distinct.mp mem), nofun⟩

theorem infix_of_parse {t : Text} {d : Directive} (h : parse? t = some d) :
    (∀ rule ∈ d.rules, rule <:+: t) ∧ ∀ why ∈ d.explanation, why <:+: t := by
  have behind : ∀ {keyword rest : Text}, behindKeyword? keyword (trimStart t) = some rest →
      rest <:+: t := by
    intro keyword rest h
    obtain ⟨v, split, -, -⟩ := trimStart_spec t
    unfold behindKeyword? at h
    split at h
    · cases h
      exact List.nil_infix
    · rename_i c tail found
      split at h
      · cases h
        refine ⟨v ++ keyword ++ [c], [], ?_⟩
        rw [split, after?_eq_some.mp found]
        simp
      · cases h
    · cases h
  have each : ∀ {form : Form} {rest : Text}, rest <:+: t →
      (∀ rule ∈ (ofBody form rest).rules, rule <:+: t) ∧
        ∀ why ∈ (ofBody form rest).explanation, why <:+: t := by
    intro form rest inside
    obtain ⟨rules, why⟩ := infix_ofBody form rest
    exact ⟨fun r hr => (rules r hr).trans inside, fun w hw => (why w hw).trans inside⟩
  unfold parse? at h
  dsimp only at h
  split at h
  · rename_i rest found
    cases h
    exact each (behind found)
  · obtain ⟨rest, found, rfl⟩ := Option.map_eq_some_iff.mp h
    exact each (behind found)

end Directive

/-- A property of texts that is about their line ends: what has none has it, and it passes to texts
put together and to trimmed parts. -/
structure Text.OfBreaks (U : Text → Prop) : Prop where
  plain : ∀ t : Text, (∀ c ∈ t, Grammar.isLineEnd c = false) → U t
  append : ∀ a b : Text, U a → U b → U (a ++ b)
  part : ∀ t x : Text, U t → x <:+: t → x.trim = x → U x

namespace Text.OfBreaks

variable {U : Text → Prop} (law : OfBreaks U)

include law

theorem joinWith {sep : Text} (hs : U sep) {parts : List Text} (each : ∀ p ∈ parts, U p) :
    U (Text.joinWith sep parts) := by
  induction parts with
  | nil => exact law.plain [] nofun
  | cons part rest ih =>
    cases rest with
    | nil => exact each part (by simp)
    | cons next rest =>
      have later := ih fun p hp => each p (by simp [hp])
      exact law.append _ _ (law.append _ _ (each part (by simp)) hs) later

theorem encode {d : Directive} (rules : ∀ rule ∈ d.rules, U rule)
    (why : ∀ w ∈ d.explanation, U w) (kind : CommentKind) : U (d.encode kind) := by
  have space : U [' '] := law.plain _ (by decide)
  have keyword : U d.form.keyword := law.plain _ (by cases d.form <;> decide)
  rw [Directive.encode_eq]
  refine law.append _ _ (law.append [' '] _ space keyword) ?_
  refine law.append _ _ (law.append _ _ ?_ ?_) ?_
  · split
    · exact law.plain [] nofun
    · exact law.append [' '] _ space (law.joinWith (law.plain _ (by decide)) rules)
  · split
    · rename_i w given
      exact law.append (' ' :: Directive.separator ++ [' ']) w (law.plain _ (by decide)) (why w given)
    · exact law.plain [] nofun
  · split
    · exact space
    · exact law.plain [] nofun

/-- A directive with a rule more has the property if the directive and the rule have it. -/
theorem merge {c c' : Comment} {rule : Text} (old : U c.text) (new : U rule)
    (merged : c.merge rule = (c', .merged)) : U c'.text := by
  rcases c.merge_cases rule with ⟨e, -⟩ | ⟨e, -⟩ | ⟨d, parsed, -, e⟩
  · rw [e] at merged
    cases merged
  · rw [e] at merged
    cases merged
  · rw [e] at merged
    cases merged
    obtain ⟨rules, why⟩ := Directive.infix_of_parse parsed
    have names := (Directive.listed_of_parse parsed).names
    have trimmed := Directive.explanation_of_parse parsed
    apply law.encode
    · intro r hr
      rcases List.mem_append.mp hr with hr | hr
      · exact law.part _ r old (rules r hr) (names r hr).trimmed
      · exact List.mem_singleton.mp hr ▸ new
    · intro w given
      refine law.part _ w old (why w given) ?_
      rw [Option.mem_def.mp given] at trimmed
      exact Option.some.inj (Option.filter_eq_some_iff.mp trimmed).1

theorem directiveText (o : AnnotateOptions) (form : Directive.Form) {rule : Text}
    (message : U o.message) (new : U rule) (kind : CommentKind) :
    U (Document.directiveText o form rule kind) := by
  apply law.encode
  · intro r hr
    exact List.mem_singleton.mp hr ▸ new
  · intro w given
    cases given
    exact message

end Text.OfBreaks

namespace Document

open Text Relation

section Edit

variable {source : Text} {doc doc' : Document} {o : AnnotateOptions} {rule : Text}

structure Writes (o : AnnotateOptions) (rule : Text) (P : Slot → Comment → Prop) : Prop where
  merge : ∀ slot c c', P slot c → c.merge rule = (c', .merged) → P slot c'
  beside : P (besideComment o rule).1 (besideComment o rule).2
  behind : P .trailing (behindComment o rule)
  note : P .inner (noteOf (directiveText o .nextLine rule .block))

def Bears (P : Slot → Comment → Prop) (doc : Document) : Prop :=
  ∀ id, doc.Reaches id → ∀ slot, ∀ c ∈ (doc.node id).comments slot, P slot c

variable {P : Slot → Comment → Prop}

theorem Bears.setComments (bears : doc.Bears P) {id : NodeId} (valid : id < doc.nodes.size)
    {slot : Slot} {cs : List Comment} (new : ∀ c ∈ cs, P slot c) :
    (doc.update id (·.setComments slot cs)).Bears P := by
  intro j reached slot' c mem
  rw [comments_update valid] at mem
  split at mem
  · rename_i here
    exact here.2 ▸ new c mem
  · exact bears j ((reaches_of_same fun k => (tree_setComments k).2.2.1).mp reached) slot' c mem

theorem Bears.splice {p : NodeId} {A B N C : List NodeId} (bears : doc.Bears P)
    (splice : doc.Splice doc' p A B N C) (linked : doc.Linked)
    (new : ∀ j, doc.nodes.size ≤ j → doc'.Reaches j →
      ∀ slot, ∀ c ∈ (doc'.node j).comments slot, P slot c) : doc'.Bears P := by
  intro j reached slot c mem
  rcases Nat.lt_or_ge j doc.nodes.size with lt | ge
  · rw [(splice.content lt).2.2 slot] at mem
    exact bears j (splice.reaches_old linked reached lt).1 slot c mem
  · exact new j ge reached slot c mem

theorem silent_of_node {j : NodeId} {kind : NodeKind} {span : Option Span} {parent : Option NodeId}
    {children : List NodeId} (node : doc.node j = { kind, span, parent, children }) (slot : Slot) :
    (doc.node j).comments slot = [] := by
  rw [node]
  cases slot <;> rfl

theorem Recut.silent {p id : NodeId} {A C : List NodeId} {parts : List Text}
    (recut : doc.Recut doc' p A id C parts) {j : NodeId} (ge : doc.nodes.size ≤ j) (slot : Slot) :
    (doc'.node j).comments slot = [] := by
  obtain ⟨i, rfl⟩ := Nat.exists_eq_add_of_le ge
  cases part : parts[i]? with
  | some t => exact silent_of_node (recut.part i t part) slot
  | none =>
    have out : doc'.nodes.size ≤ doc.nodes.size + i := by
      rw [recut.size]
      exact Nat.add_le_add_left (List.getElem?_eq_none_iff.mp part) _
    exact silent_of_node (node_of_size_le doc' out) slot

theorem Noted.node_new {p : NodeId} {A C : List NodeId} {lead : Option Text} {body gap : Text}
    (noted : doc.Noted doc' p A C lead body gap) {j : NodeId} (ge : doc.nodes.size ≤ j) :
    doc'.node j = { kind := .hole, span := none, parent := some p, children := [doc.nodes.size + 1] } ∨
    doc'.node j = { kind := .emptyHole, span := none, parent := some doc.nodes.size
                    inner := [noteOf body] } ∨
    (∃ t, (t = gap ∨ t ∈ lead) ∧ doc'.node j = { kind := .text t, span := none, parent := some p }) ∨
    doc'.node j = { kind := .empty, span := none } := by
  obtain ⟨i, rfl⟩ := Nat.exists_eq_add_of_le ge
  match i with
  | 0 => exact .inl noted.hole
  | 1 => exact .inr (.inl noted.slot)
  | i + 2 =>
    refine .inr (.inr ?_)
    have size := noted.size
    rcases Nat.lt_or_ge (doc.nodes.size + (i + 2)) doc'.nodes.size with lt | out
    · refine .inl ?_
      cases lead with
      | none =>
        obtain rfl : i = 0 := by
          simp only [Option.toList_none, List.length_nil] at size
          omega
        exact ⟨gap, .inl rfl, noted.behind⟩
      | some u =>
        simp only [Option.toList_some, List.length_singleton] at size
        rcases (by omega : i = 0 ∨ i = 1) with rfl | rfl
        · exact ⟨u, .inr rfl, noted.front u rfl⟩
        · exact ⟨gap, .inl rfl, noted.behind⟩
    · exact .inr (node_of_size_le doc' out)

theorem Noted.comments_new {p : NodeId} {A C : List NodeId} {lead : Option Text} {body gap : Text}
    (noted : doc.Noted doc' p A C lead body gap) {j : NodeId} (ge : doc.nodes.size ≤ j)
    (slot : Slot) {c : Comment} (mem : c ∈ (doc'.node j).comments slot) :
    slot = .inner ∧ c = noteOf body := by
  rcases noted.node_new ge with node | node | ⟨t, -, node⟩ | node
  · rw [silent_of_node node slot] at mem
    cases mem
  · rw [node] at mem
    cases slot with
    | leading => cases mem
    | trailing => cases mem
    | inner => exact ⟨rfl, List.mem_singleton.mp mem⟩
  · rw [silent_of_node node slot] at mem
    cases mem
  · rw [silent_of_node node slot] at mem
    cases mem

theorem Noted.text_new {p : NodeId} {A C : List NodeId} {lead : Option Text} {body gap : Text}
    (noted : doc.Noted doc' p A C lead body gap) {j : NodeId} (ge : doc.nodes.size ≤ j) :
    doc'.span j = none ∧ ∀ t, doc'.text? j = some t → t = gap ∨ t ∈ lead := by
  unfold span text? kind
  rcases noted.node_new ge with node | node | ⟨t, which, node⟩ | node
  · rw [node]
    exact ⟨rfl, nofun⟩
  · rw [node]
    exact ⟨rfl, nofun⟩
  · rw [node]
    refine ⟨rfl, fun u e => ?_⟩
    cases e
    exact which
  · rw [node]
    exact ⟨rfl, nofun⟩

theorem Bears.noted {p : NodeId} {A C : List NodeId} {lead : Option Text} {body gap : Text}
    (bears : doc.Bears P) (noted : doc.Noted doc' p A C lead body gap) (linked : doc.Linked)
    (note : P .inner (noteOf body)) : doc'.Bears P := by
  refine bears.splice noted.splice linked fun j ge _ slot c mem => ?_
  obtain ⟨rfl, rfl⟩ := noted.comments_new ge slot mem
  exact note

theorem Edit.bears (edit : Edit o rule doc doc') (sound : doc.Sound source) (writes : Writes o rule P)
    (bears : doc.Bears P) : doc'.Bears P := by
  cases edit with
  | @extend id slot cs c c' reached held merged =>
    have old := bears id reached slot
    rw [held] at old
    refine bears.setComments (sound.reaches_lt reached) fun k hk => ?_
    rcases List.mem_append.mp hk with hk | hk
    · exact old k (by simp [hk])
    · exact List.mem_singleton.mp hk ▸ writes.merge slot c c' (old c (by simp)) merged
  | beside found =>
    have reached := (sound.first_spec found).1
    rw [appendComment_eq]
    refine bears.setComments (sound.reaches_lt reached) fun k hk => ?_
    rcases List.mem_append.mp hk with hk | hk
    · exact bears _ reached _ k hk
    · exact List.mem_singleton.mp hk ▸ writes.beside
  | behind reached kind found =>
    have reached' := (sound.last_statement reached kind found).1
    rw [appendComment_eq]
    refine bears.setComments (sound.reaches_lt reached') fun k hk => ?_
    rcases List.mem_append.mp hk with hk | hk
    · exact bears _ reached' _ k hk
    · exact List.mem_singleton.mp hk ▸ writes.behind
  | fill reached kind empty =>
    obtain ⟨splice, size, node⟩ := addPlaceholder_spec (sound.reaches_lt reached)
    have sound' := sound.addPlaceholder reached kind empty
    refine bears.splice splice sound.linked fun j ge reached' slot c mem => ?_
    have lt := sound'.reaches_lt reached'
    rw [size] at lt
    obtain rfl : j = doc.nodes.size := Nat.le_antisymm (Nat.lt_succ_iff.mp lt) ge
    rw [silent_of_node node slot] at mem
    cases mem
  | cut reached markup span settled recut =>
    refine bears.splice recut.splice sound.linked fun j ge _ slot c mem => ?_
    rw [recut.silent ge slot] at mem
    cases mem
  | among _ _ _ _ _ _ _ _ noted => exact bears.noted noted sound.linked writes.note
  | last _ _ _ _ _ noted => exact bears.noted noted sound.linked writes.note

end Edit

section Standing

variable {source : Text} {doc : Document}

/-- Comments of the source stand in it as they are rendered. -/
def Standing (source : Text) (doc : Document) : Prop :=
  doc.Bears fun _ c => ∀ s, c.span = some s → slice? s.lo s.hi source = some c.render

theorem standing_of_table (linked : doc.Linked) (root_lt : root < doc.nodes.size)
    (h : ∀ id < doc.nodes.size, ∀ c ∈ (doc.node id).allComments, ∀ s ∈ c.span,
      slice? s.lo s.hi source = some c.render) : doc.Standing source := by
  intro id reached slot c mem s span
  exact h id (linked.reaches_lt root_lt reached) c (mem_allComments.mpr ⟨slot, mem⟩) s span

theorem Sound.slot_comment (sound : doc.Sound source) {id : NodeId} (reached : doc.Reaches id)
    (spanless : doc.span id = none) (kind : doc.kind id = .emptyHole) {c : Comment}
    (mem : c ∈ (doc.node id).inner) : c.span = none := by
  rcases List.eq_nil_or_concat (doc.node id).inner with none | ⟨cs, k, held⟩
  · rw [none] at mem
    cases mem
  · rw [List.concat_eq_append] at held
    have last : (doc.node id).comments .inner = cs ++ [k] := held
    rcases sound.ghost_comment reached spanless last with h | ⟨-, -, rfl, new⟩
    · rw [h] at kind
      cases kind
    · rw [held] at mem
      exact List.mem_singleton.mp mem ▸ new

end Standing

/-- A message and a rule without line breaks. -/
def OnOneLine (o : AnnotateOptions) (rule : Text) : Prop :=
  (∀ c ∈ o.message, c ≠ '\n' ∧ c ≠ '\r') ∧ ∀ c ∈ rule, c ≠ '\n' ∧ c ≠ '\r'

def EditsWith (W : AnnotateOptions → Text → Prop) : Document → Document → Prop :=
  ReflTransGen fun doc doc' => ∃ o rule, W o rule ∧ Edit o rule doc doc'

/-- Any number of calls with options and rules of a kind. -/
def CallsWith (W : AnnotateOptions → Text → Prop) : Document → Document → Prop :=
  ReflTransGen fun doc doc' => ∃ o line rule r, W o rule ∧ doc.annotateOne o line rule = .ok (doc', r)

section Run

variable {source : Text} {doc doc' : Document} {W : AnnotateOptions → Text → Prop}

/-- What every edit of the kind keeps holds at the end. -/
theorem EditsWith.keeps {I : Document → Prop} (edits : EditsWith W doc doc') (sound : doc.Sound source)
    (start : I doc) (step : ∀ o rule one two, W o rule → Edit o rule one two → one.Sound source →
      I one → I two) : doc'.Sound source ∧ I doc' := by
  induction edits with
  | refl => exact ⟨sound, start⟩
  | tail _ last ih =>
    obtain ⟨o, rule, kind, edit⟩ := last
    exact ⟨edit.sound ih.1, step o rule _ _ kind edit ih.1 ih.2⟩

theorem EditsWith.sound (edits : EditsWith W doc doc') (sound : doc.Sound source) :
    doc'.Sound source :=
  (edits.keeps sound trivial fun _ _ _ _ _ _ _ _ => trivial).1

theorem EditsWith.frame (edits : EditsWith W doc doc') (sound : doc.Sound source) :
    doc.Frame doc' :=
  (edits.keeps sound (.refl doc) fun _ _ _ _ _ edit sound frame =>
    frame.trans (edit.frame sound).1).2

theorem EditsWith.bears {P : Slot → Comment → Prop} (edits : EditsWith W doc doc')
    (sound : doc.Sound source) (writes : ∀ o rule, W o rule → Writes o rule P)
    (bears : doc.Bears P) : doc'.Bears P :=
  (edits.keeps sound bears fun o rule _ _ kind edit sound => edit.bears sound (writes o rule kind)).2

theorem Edits.with {o : AnnotateOptions} {rule : Text} (edits : Edits o rule doc doc')
    (kind : W o rule) : EditsWith W doc doc' := by
  induction edits with
  | refl => exact .refl
  | tail _ edit ih => exact ih.tail ⟨o, rule, kind, edit⟩

theorem CallsWith.edits (calls : CallsWith W doc doc') (sound : doc.Sound source) :
    EditsWith W doc doc' := by
  induction calls with
  | refl => exact .refl
  | @tail mid last _ called ih =>
    obtain ⟨o, line, rule, r, kind, result⟩ := called
    have sound' := ih.sound sound
    obtain ⟨d, r', result', call⟩ := annotateOne_ok sound' o line rule
    cases result.symm.trans result'
    exact ih.trans ((call.settles sound').edits.with kind)

theorem annotateFrom_edits {o : AnnotateOptions} (sound : doc.Sound source) (summary : Summary)
    {ds : List Diagnostic} (kind : ∀ d ∈ ds, ∀ rule, Asks o d rule → W o rule) :
    ∃ doc' summary', doc.annotateFrom o summary ds = .ok (doc', summary') ∧
      EditsWith W doc doc' := by
  induction ds generalizing doc summary with
  | nil => exact ⟨doc, summary, rfl, .refl⟩
  | cons d ds ih =>
    have later : ∀ d ∈ ds, ∀ rule, Asks o d rule → W o rule := fun e he => kind e (by simp [he])
    rw [annotateFrom]
    split
    · exact ih sound summary later
    · rename_i rule actionable
      split
      · rename_i allowed
        obtain ⟨mid, r, result, call⟩ := annotateOne_ok sound o d.line rule
        have edits := (call.settles sound).edits
        obtain ⟨doc', summary', rest, after⟩ :=
          ih (edits.sound sound) (summary.record d.line rule r) later
        rw [result]
        exact ⟨doc', summary', rest,
          (edits.with (kind d (by simp) rule ⟨actionable, allowed⟩)).trans after⟩
      · exact ih sound summary later

end Run
end Document
end Quell
