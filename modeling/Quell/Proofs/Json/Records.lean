import Mathlib.Data.List.Nodup
import Quell.Config
import Quell.Diagnostic
import Quell.Proofs.Json.Spelling

/-!
Configurations and diagnostics are read as they were written.

A record is written as an object with one field for each name, and a name is looked up in it
whatever else is there (`record?_ofFields`). Some fields are not written if there is no value; the
reader has none for them then (`Config.read_written`, `Diagnostic.read_written`).
-/
namespace Quell

open Json

namespace Json

theorem field?_ofFields (fields : List (String × Json)) (name : String) :
    field? (fields.map fun (n, j) => (some n.toList, j)) name.toList = fields.lookup name := by
  unfold field?
  induction fields with
  | nil => rfl
  | cons f fields ih =>
    obtain ⟨n, j⟩ := f
    rw [List.map_cons, List.find?_cons, List.lookup_cons]
    by_cases same : n = name
    · simp [same]
    · have apart : (name == n) = false := beq_eq_false_iff_ne.mpr (Ne.symm same)
      have other : n.toList ≠ name.toList := fun e => same (String.toList_injective e)
      simpa [apart, other] using ih

theorem hasPlainKeys_ofFields (slots : List Slot) {fields : List (String × Json)}
    (distinct : (fields.map (·.1)).Nodup) :
    hasPlainKeys slots (fields.map fun (n, j) => (some n.toList, j)) = true := by
  unfold hasPlainKeys
  rw [Bool.and_eq_true]
  refine ⟨by simp, List.all_eq_true.mpr fun s _ => ?_⟩
  have once := List.nodup_iff_count_le_one.mp distinct s.name
  rw [List.count_eq_length_filter, List.filter_map, List.length_map] at once
  rw [List.filter_map, List.length_map]
  refine decide_eq_true (Nat.le_trans (Nat.le_of_eq ?_) once)
  congr 2
  funext f
  exact Bool.eq_iff_iff.mpr (by simp [String.toList_inj])

theorem record?_ofFields (slots : List Slot) {fields : List (String × Json)}
    (distinct : (fields.map (·.1)).Nodup) :
    record? slots (ofFields fields) = some (slots.map fun s => fields.lookup s.name) := by
  unfold ofFields record?
  dsimp only
  rw [if_pos (hasPlainKeys_ofFields slots distinct)]
  simp only [field?_ofFields]

theorem list?_ofTexts (ts : List Text) : list? text? (ofTexts ts) = some ts := by
  show (ts.map ofText).mapM text? = some ts
  induction ts with
  | nil => rfl
  | cons t ts ih =>
    rw [List.map_cons, List.mapM_cons, ih]
    rfl

end Json

namespace Config

theorem plain_toJson (c : Config) : Plain c.toJson := by
  refine .ofFields fun f hf => ?_
  have field := (List.mem_filter.mp hf).1
  simp only [fields, List.mem_cons, List.not_mem_nil, or_false] at field
  rcases field with rfl | rfl | rfl | rfl | rfl | rfl
  · exact .string _
  · exact .ofTexts _
  · exact .bool _
  · exact .ofOption .string _
  · exact .ofTexts _
  · exact .bool _

theorem record?_toJson (c : Config) : record? slots c.toJson =
    some [some (ofText c.message), some (ofTexts c.rules), some (bool c.inline),
      c.baseConfig.map ofText, some (ofTexts c.ignores), some (bool c.useIgnoreFiles)] := by
  have distinct : (c.fields.map (·.1)).Nodup := by
    show (["message", "rules", "inline", "baseConfig", "ignores", "useIgnoreFiles"] : List String).Nodup
    decide
  rw [toJson, record?_ofFields slots (distinct.sublist (List.filter_sublist.map _))]
  cases h : c.baseConfig with
  | none => simp [fields, slots, h, List.lookup_cons]
  | some base => simp [fields, slots, h, List.lookup_cons, Json.ofOption]

theorem ofJson?_toJson (c : Config) : ofJson? c.toJson = some c := by
  have base : optional text? (c.baseConfig.map ofText) = some c.baseConfig := by
    cases c.baseConfig <;> rfl
  unfold ofJson?
  rw [record?_toJson]
  dsimp only
  rw [base]
  simp only [defaulted, list?_ofTexts]
  rfl

end Config

namespace Diagnostic

/-- The numbers fit into 64 bits, and the severity into 8. -/
def Fits (d : Diagnostic) : Prop :=
  d.line < 0x10000000000000000 ∧ (∀ n ∈ d.column, n < 0x10000000000000000) ∧ d.severity < 0x100

theorem plain_toJson (d : Diagnostic) : Plain d.toJson := by
  refine .ofFields fun f hf => ?_
  simp only [List.mem_append, List.mem_cons, List.not_mem_nil, or_false, Option.mem_toList,
    Option.map_eq_some_iff] at hf
  rcases hf with ((rfl | ⟨n, -, rfl⟩) | rfl | rfl) | ⟨t, -, rfl⟩
  · exact .number _
  · exact .number _
  · exact .ofOption .string _
  · exact .number _
  · exact .string _

theorem record?_toJson (d : Diagnostic) : record? slots d.toJson =
    some [some (ofNat d.line), d.column.map ofNat, some (ofOption ofText d.rule),
      some (ofNat d.severity), d.message.map ofText] := by
  rw [toJson, record?_ofFields]
  · cases d.column <;> cases d.message <;> simp [slots, List.lookup_cons]
  · cases d.column <;> cases d.message <;> simp

theorem ofJson?_toJson {d : Diagnostic} (fits : d.Fits) : ofJson? d.toJson = some d := by
  obtain ⟨line, column, severity⟩ := fits
  have wide : ∀ {n}, n < 0x10000000000000000 → wide? (ofNat n) = some n := nat?_ofNat
  have byte : byte? (ofNat d.severity) = some d.severity := nat?_ofNat severity
  have column' : Json.optional wide? (d.column.map ofNat) = some d.column := by
    cases h : d.column with
    | none => rfl
    | some n => exact congrArg (Option.map some) (wide (column n h))
  have rule : Json.optional text? (some (ofOption ofText d.rule)) = some d.rule := by
    cases d.rule <;> rfl
  have message : Json.optional text? (d.message.map ofText) = some d.message := by
    cases d.message <;> rfl
  unfold ofJson?
  rw [record?_toJson]
  dsimp only
  rw [column', rule, message]
  simp [defaulted, required, wide line, byte]

end Diagnostic

/-- A configuration is read from its file as it was written, and a diagnostic whose numbers fit from
its report. The fields that may be missing are missing exactly if there is no value for them; the
rule is null then. -/
theorem written_is_read :
    (∀ c : Config, ∃ fields, read? c.toJson.pretty = some (.object fields) ∧
      Config.ofJson? (.object fields) = some c ∧
      (field? fields "baseConfig".toList = none ↔ c.baseConfig = none)) ∧
    ∀ d : Diagnostic, d.Fits → ∃ fields, read? d.toJson.compact = some (.object fields) ∧
      Diagnostic.ofJson? (.object fields) = some d ∧
      (field? fields "column".toList = none ↔ d.column = none) ∧
      (field? fields "message".toList = none ↔ d.message = none) ∧
      (field? fields "ruleId".toList = some .null ↔ d.rule = none) := by
  refine ⟨fun c => ⟨_, (c.plain_toJson.prettyAt 0).read?_eq, c.ofJson?_toJson, ?_⟩,
    fun d fits => ⟨_, d.plain_toJson.compact.read?_eq, Diagnostic.ofJson?_toJson fits, ?_, ?_, ?_⟩⟩
  · rw [field?_ofFields]
    cases h : c.baseConfig with
    | none => simp [Config.fields, h, List.lookup_cons]
    | some base => simp [Config.fields, h, List.lookup_cons]
  · rw [field?_ofFields]
    cases d.column <;> cases d.message <;> simp [List.lookup_cons]
  · rw [field?_ofFields]
    cases d.column <;> cases d.message <;> simp [List.lookup_cons]
  · rw [field?_ofFields]
    cases d.column <;> cases d.rule <;> simp [List.lookup_cons, ofOption, ofText]

/-- The largest numbers that fit, and texts with every kind of character. -/
def Diagnostic.extreme : Diagnostic where
  line := 18446744073709551615
  column := some 18446744073709551615
  rule := some ['"', '\\', '/', '\x00', '\x1f', '\x7f', '\n', '\t']
  severity := 255
  message := some ['\u2028', '😀', Char.ofNat 0x10ffff, 'é']

theorem written_is_read_extreme : Diagnostic.extreme.Fits ∧
    (read? Diagnostic.extreme.toJson.compact).bind Diagnostic.ofJson? = some .extreme := by
  have fits : Diagnostic.extreme.Fits := by
    simp [Diagnostic.Fits, Diagnostic.extreme]
  obtain ⟨fields, read, taken, -⟩ := written_is_read.2 .extreme fits
  exact ⟨fits, by rw [read]; exact taken⟩

end Quell
