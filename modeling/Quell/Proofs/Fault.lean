import Quell.Document.Edit

/-!
Runs that may fault.

What an answer tells about the steps that led to it, and what a fold keeps of what its steps keep.
-/
namespace Quell

variable {ε α β γ : Type}

theorem map_eq_ok {x : Except ε α} {f : α → β} {b : β} (h : x.map f = .ok b) :
    ∃ a, x = .ok a ∧ b = f a := by
  cases x with
  | error e => cases h
  | ok a => exact ⟨a, rfl, (Except.ok.inj h).symm⟩

theorem bind_eq_ok {x : Except ε α} {f : α → Except ε β} {b : β} (h : (x >>= f) = .ok b) :
    ∃ a, x = .ok a ∧ f a = .ok b := by
  cases x with
  | error e => cases h
  | ok a => exact ⟨a, rfl, h⟩

section Fold

variable {I : α → Prop} {f : α → γ → Except ε α} {cs : List γ}

/-- What each step of a fold keeps, the fold keeps. -/
theorem foldlM_keeps (step : ∀ c ∈ cs, ∀ a b, I a → f a c = .ok b → I b) {a b : α} (start : I a)
    (h : cs.foldlM f a = .ok b) : I b := by
  induction cs generalizing a with
  | nil =>
    cases h
    exact start
  | cons c cs ih =>
    rw [List.foldlM_cons] at h
    obtain ⟨mid, first, rest⟩ := bind_eq_ok h
    exact ih (fun d hd => step d (by simp [hd])) (step c (by simp) a mid start first) rest

theorem foldlM_ok (step : ∀ c ∈ cs, ∀ a, I a → ∃ b, f a c = .ok b ∧ I b) {a : α} (start : I a) :
    ∃ b, cs.foldlM f a = .ok b ∧ I b := by
  induction cs generalizing a with
  | nil => exact ⟨a, rfl, start⟩
  | cons c cs ih =>
    obtain ⟨mid, first, kept⟩ := step c List.mem_cons_self a start
    rw [List.foldlM_cons, first]
    exact ih (fun d hd => step d (List.mem_cons_of_mem c hd)) kept

theorem foldlM_map {g : β → γ → Except ε β} {view : α → β}
    (step : ∀ a c, (f a c).map view = g (view a) c) (a : α) (cs : List γ) :
    (cs.foldlM f a).map view = cs.foldlM g (view a) := by
  induction cs generalizing a with
  | nil => rfl
  | cons c cs ih =>
    rw [List.foldlM_cons, List.foldlM_cons, ← step a c]
    cases f a c with
    | error e => rfl
    | ok b => exact ih b

end Fold

end Quell
