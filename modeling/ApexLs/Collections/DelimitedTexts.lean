import Mathlib.Data.Set.Basic
import Mathlib.Data.List.Basic

/-! Texts that are read up to a delimiter. What is written without the delimiters it can stand in front of is
read off the front of any longer text in one way. -/
namespace ApexLs.Collections

variable {α : Type u} {σ : Type v}

def Ends (delimiters : Set σ) (rest : List σ) : Prop := ∀ c ∈ rest.head?, c ∈ delimiters

@[simp] theorem ends_cons {delimiters : Set σ} {c : σ} {rest : List σ} : Ends delimiters (c :: rest) ↔ c ∈ delimiters := by
  simp [Ends]

theorem Ends.mono {outer inner : Set σ} (sub : outer ⊆ inner) {rest : List σ} (ends : Ends outer rest) :
    Ends inner rest := fun c head => sub (ends c head)

/-- In front of a delimiter, what is written for `a` is written for no other of `kind`. -/
def Legible (write : α → List σ) (kind : Set α) (delimiters : Set σ) (a : α) : Prop :=
  ∀ b ∈ kind, ∀ rest rest', Ends delimiters rest → Ends delimiters rest' → write a ++ rest = write b ++ rest' →
    a = b ∧ rest = rest'

theorem append_inj_of_free {delimiters : Set σ} {l l' rest rest' : List σ} (free : ∀ c ∈ l, c ∉ delimiters)
    (free' : ∀ c ∈ l', c ∉ delimiters) (ends : Ends delimiters rest) (ends' : Ends delimiters rest')
    (same : l ++ rest = l' ++ rest') : l = l' ∧ rest = rest' := by
  induction l generalizing l' with
  | nil =>
    cases l' with
    | nil => exact ⟨rfl,same⟩
    | cons c l' =>
      obtain rfl : rest = c :: (l' ++ rest') := same
      exact absurd (ends_cons.mp ends) (free' c (.head _))
  | cons c l ih =>
    cases l' with
    | nil =>
      obtain rfl : c :: (l ++ rest) = rest' := same
      exact absurd (ends_cons.mp ends') (free c (.head _))
    | cons c' l' =>
      obtain ⟨rfl,tails⟩ := List.cons.inj same
      obtain ⟨rfl,rests⟩ := ih (fun x member => free x (.tail _ member)) (fun x member => free' x (.tail _ member)) tails
      exact ⟨rfl,rests⟩

theorem Legible.of_free {write : α → List σ} {kind : Set α} {delimiters : Set σ} {a : α} (member : a ∈ kind)
    (free : ∀ b ∈ kind, ∀ c ∈ write b, c ∉ delimiters) (injective : ∀ b ∈ kind, write a = write b → a = b) :
    Legible write kind delimiters a := by
  intro b other rest rest' ends ends' same
  obtain ⟨written,rests⟩ := append_inj_of_free (free a member) (free b other) ends ends' same
  exact ⟨injective b other written,rests⟩

theorem Legible.joined {write : α → List σ} {kind : Set α} {inner outer : Set σ} {separator : σ}
    (separates : separator ∈ inner) (sub : outer ⊆ inner) (apart : separator ∉ outer) {l : List α} (some_ : l ≠ [])
    (each : ∀ a ∈ l, Legible write kind inner a) :
    Legible (fun l => [separator].intercalate (l.map write)) {l | l ≠ [] ∧ ∀ a ∈ l, a ∈ kind} outer l := by
  induction l with
  | nil => exact absurd rfl some_
  | cons a l ih =>
    rintro m ⟨full,kinds⟩ rest rest' ends ends' same
    cases m with
    | nil => exact absurd rfl full
    | cons b m =>
      have first := each a (.head _) b (kinds b (.head _))
      cases l with
      | nil =>
        cases m with
        | nil =>
          obtain ⟨rfl,rests⟩ := first rest rest' (ends.mono sub) (ends'.mono sub) (by simpa using same)
          exact ⟨rfl,rests⟩
        | cons b' m =>
          obtain ⟨_,rfl⟩ := first rest _ (ends.mono sub) (ends_cons.mpr separates) (by simpa using same)
          exact absurd (ends_cons.mp ends) apart
      | cons a' l =>
        cases m with
        | nil =>
          obtain ⟨_,rests⟩ := first _ rest' (ends_cons.mpr separates) (ends'.mono sub) (by simpa using same)
          exact absurd (ends_cons.mp (rests ▸ ends')) apart
        | cons b' m =>
          obtain ⟨rfl,tails⟩ := first _ _ (ends_cons.mpr separates) (ends_cons.mpr separates) (by simpa using same)
          obtain ⟨others,rests⟩ := ih (List.cons_ne_nil _ _) (fun x member => each x (.tail _ member)) (b' :: m)
            ⟨List.cons_ne_nil _ _,fun x member => kinds x (.tail _ member)⟩ rest rest' ends ends'
            (by simpa using (List.cons.inj tails).2)
          exact ⟨congrArg (a :: ·) others,rests⟩

theorem Legible.repeated {delimiters : Set σ} {c : σ} (unit : List σ) (free : c ∉ delimiters) (n : Nat) :
    Legible (fun n : Nat => (List.replicate n (c :: unit)).flatten) Set.univ delimiters n := by
  induction n with
  | zero =>
    rintro m - rest rest' ends ends' same
    cases m with
    | zero => exact ⟨rfl,same⟩
    | succ m =>
      have goesOn : rest = c :: (unit ++ ((List.replicate m (c :: unit)).flatten ++ rest')) := by
        simpa [List.replicate_succ] using same
      rw [goesOn] at ends
      exact absurd (ends_cons.mp ends) free
  | succ n ih =>
    rintro m - rest rest' ends ends' same
    cases m with
    | zero =>
      have goesOn : rest' = c :: (unit ++ ((List.replicate n (c :: unit)).flatten ++ rest)) := by
        simpa [List.replicate_succ] using same.symm
      rw [goesOn] at ends'
      exact absurd (ends_cons.mp ends') free
    | succ m =>
      obtain ⟨rfl,rests⟩ := ih m (Set.mem_univ _) rest rest' ends ends' (by simpa [List.replicate_succ] using same)
      exact ⟨rfl,rests⟩

end ApexLs.Collections
