import Quell.Proofs.Text.Offsets

/-!
The line of an offset, found by halving.

`lineOf` counts the lines that start at or before an offset. The starts of lines ascend, so a search
for the offset among them gives the same number: it tells where the offset stands, or where it would
have to go (`lineOf_of_search`). The number is one more than the line feeds in front of the offset,
and that holds inside a character too (`lineOf_eq_breaksBefore`).
-/
namespace Quell

inductive Finding where
  | present (index : Nat)
  | absent (index : Nat)
  deriving DecidableEq, Repr

namespace Finding

inductive Right (xs : List Nat) (n : Nat) : Finding → Prop where
  | present {i : Nat} : xs[i]? = some n → Right xs n (present i)
  | absent {i : Nat} : i ≤ xs.length → (∀ x ∈ xs.take i, x < n) → (∀ x ∈ xs.drop i, n < x) →
      Right xs n (absent i)

def rank : Finding → Nat
  | present i => i + 1
  | absent i => i

def bisect (xs : List Nat) (n lo hi : Nat) : Finding :=
  if lo < hi then
    let mid := lo + (hi - lo) / 2
    match xs[mid]? with
    | some x =>
      if x < n then bisect xs n (mid + 1) hi
      else if n < x then bisect xs n lo mid
      else present mid
    | none => absent lo
  else absent lo
termination_by hi - lo

variable {xs : List Nat} {n : Nat}

theorem countP_split {A B : List Nat} (low : ∀ x ∈ A, x ≤ n) (high : ∀ x ∈ B, n < x) :
    (A ++ B).countP (· ≤ n) = A.length := by
  have front : A.countP (· ≤ n) = A.length :=
    List.countP_eq_length.mpr fun x hx => decide_eq_true (low x hx)
  have back : B.countP (· ≤ n) = 0 :=
    List.countP_eq_zero.mpr fun x hx le => absurd (of_decide_eq_true le) (Nat.not_le_of_lt (high x hx))
  rw [List.countP_append, front, back, Nat.add_zero]

theorem Right.rank_eq {found : Finding} (right : Right xs n found) (ascends : xs.Pairwise (· < ·)) :
    found.rank = xs.countP (· ≤ n) := by
  cases right with
  | @present i here =>
    obtain ⟨lt, rfl⟩ := List.getElem?_eq_some_iff.mp here
    have cut : xs = (xs.take i ++ [xs[i]]) ++ xs.drop (i + 1) := by
      rw [List.append_assoc, List.singleton_append, ← List.drop_eq_getElem_cons lt,
        List.take_append_drop]
    have order := ascends
    rw [cut, List.pairwise_append, List.pairwise_append] at order
    obtain ⟨⟨-, -, before⟩, -, behind⟩ := order
    have count := countP_split (n := xs[i]) (A := xs.take i ++ [xs[i]]) (B := xs.drop (i + 1))
      (fun x hx => by
        rcases List.mem_append.mp hx with hx | hx
        · exact Nat.le_of_lt (before x hx _ (by simp))
        · exact Nat.le_of_eq (List.mem_singleton.mp hx))
      fun x hx => behind _ (List.mem_append_right _ (List.mem_singleton_self _)) x hx
    rw [← cut, List.length_append, List.length_take_of_le (Nat.le_of_lt lt)] at count
    exact count.symm
  | @absent i le low high =>
    have count := countP_split (fun x hx => Nat.le_of_lt (low x hx)) high
    rw [List.take_append_drop, List.length_take_of_le le] at count
    exact count.symm

/-- Halving answers right where everything in front of the range is too small and everything behind
it too large. -/
theorem bisect_right (ascends : xs.Pairwise (· < ·)) {lo hi : Nat} (le : lo ≤ hi)
    (inside : hi ≤ xs.length) (low : ∀ x ∈ xs.take lo, x < n) (high : ∀ x ∈ xs.drop hi, n < x) :
    Right xs n (bisect xs n lo hi) := by
  fun_induction bisect xs n lo hi with
  | case1 lo hi range mid x here below ih =>
    have lt : mid < xs.length := by omega
    refine ih (by omega) inside (fun y hy => ?_) high
    -- What stands in front of the middle is smaller than what stands there.
    rw [List.take_succ_eq_append_getElem lt] at hy
    have value := List.getElem?_eq_some_iff.mp here
    rcases List.mem_append.mp hy with hy | hy
    · obtain ⟨j, hj, rfl⟩ := List.mem_take_iff_getElem.mp hy
      have := List.pairwise_iff_getElem.mp ascends j mid (by omega) lt (by omega)
      rw [value.2] at this
      omega
    · rw [List.mem_singleton.mp hy, value.2]
      exact below
  | case2 lo hi range mid x here notBelow above ih =>
    have lt : mid < xs.length := by omega
    refine ih (by omega) (by omega) low fun y hy => ?_
    have value := List.getElem?_eq_some_iff.mp here
    rw [List.drop_eq_getElem_cons lt, value.2] at hy
    rcases List.mem_cons.mp hy with rfl | hy
    · exact above
    · obtain ⟨j, hj, rfl⟩ := List.mem_drop_iff_getElem.mp hy
      have := List.pairwise_iff_getElem.mp ascends mid (mid + 1 + j) lt (by omega) (by omega)
      rw [value.2] at this
      omega
  | case3 lo hi range mid x here notBelow notAbove =>
    obtain rfl : x = n := by omega
    exact .present here
  | case4 lo hi range mid none =>
    have := List.getElem?_eq_none_iff.mp none
    omega
  | case5 lo hi empty =>
    obtain rfl : lo = hi := by omega
    exact .absent inside low high

end Finding

namespace Text

/-- The characters of a text, each with the offset at which it starts. -/
def located : Nat → Text → List (Nat × Char)
  | _, [] => []
  | start, c :: cs => (start, c) :: located (start + c.utf8Size) cs

def breaksBefore (offset : Nat) (t : Text) : Nat :=
  (located 0 t).countP fun (i, c) => c = '\n' && i < offset

end Text

namespace LineIndex

open Text

theorem ascends_startsFrom (start : Nat) (t : Text) : (startsFrom start t).Pairwise (· < ·) := by
  induction t generalizing start with
  | nil => exact .nil
  | cons c cs ih =>
    rw [startsFrom]
    split
    · exact .cons (fun n hn => lt_of_mem_startsFrom hn) (ih _)
    · exact ih _

theorem ascends_starts (source : Text) : (of source).starts.Pairwise (· < ·) :=
  .cons (fun _ hn => lt_of_mem_startsFrom hn) (ascends_startsFrom 0 source)

theorem countP_startsFrom_le (start offset : Nat) (t : Text) :
    (startsFrom start t).countP (· ≤ offset) =
      (located start t).countP fun (i, c) => c = '\n' && i < offset := by
  induction t generalizing start with
  | nil => rfl
  | cons c cs ih =>
    rw [startsFrom, located, List.countP_cons, ← ih]
    split
    · rename_i feed
      subst feed
      have one : start + '\n'.utf8Size ≤ offset ↔ start < offset := Nat.lt_iff_add_one_le.symm
      simp only [List.countP_cons, one, decide_true, Bool.true_and]
    · rename_i other
      simp [other]

theorem lineOf_eq_breaksBefore (source : Text) (offset : Nat) :
    (of source).lineOf offset = 1 + breaksBefore offset source := by
  have tail := countP_startsFrom_le 0 offset source
  unfold lineOf of breaksBefore
  rw [List.countP_cons_of_pos (by exact decide_eq_true (Nat.zero_le offset)), tail, Nat.add_comm]

example : [0, 2, 3, 6, 7, 9].map (of "ab\ncd\n\nef".toList).lineOf = [1, 1, 2, 3, 4, 4] := by decide

theorem lineOf_of_search {source : Text} {offset : Nat} {found : Finding}
    (right : found.Right (of source).starts offset) : found.rank = (of source).lineOf offset :=
  right.rank_eq (ascends_starts source)

theorem search_starts (source : Text) (offset : Nat) :
    (Finding.bisect (of source).starts offset 0 (of source).starts.length).Right
      (of source).starts offset :=
  Finding.bisect_right (ascends_starts source) (Nat.zero_le _) (Nat.le_refl _) (by simp) (by simp)

end LineIndex
end Quell
