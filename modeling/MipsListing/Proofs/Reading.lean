/-
# Reading item by item

A list of items is read one after the other, each with its position, up to the first that is
refused.  All of them can be read exactly if each can, and else the refusal is that of the first
that cannot, whatever comes behind it.

* `outcome_of_alternative` : an outcome known from the two sides of an alternative;
* `mapM_zipIdx_eq_ok_iff` : when all items can be read, and what they are read as;
* `mapM_zipIdx_eq_error_iff` : when they cannot, and why;
* `forall_or_exists_first` : every item is good, or there is a first that is not.
-/
import Mathlib

namespace MipsListing

/-- Putting a refusal into other words does not touch a success. -/
theorem mapError_eq_ok_iff {δ ε α : Type} (f : δ → ε) (outcome : Except δ α) (value : α) :
    outcome.mapError f = .ok value ↔ outcome = .ok value := by
  cases outcome <;> simp [Except.mapError]

/-- A refusal in other words comes from a refusal. -/
theorem mapError_eq_error_iff {δ ε α : Type} (f : δ → ε) (outcome : Except δ α) (error : ε) :
    outcome.mapError f = .error error ↔ ∃ cause, outcome = .error cause ∧ f cause = error := by
  cases outcome <;> simp [Except.mapError]

/-- An outcome is known if a condition or else a fault is known to decide it: it is a value exactly
under the condition, and it is an error exactly for the fault. -/
theorem outcome_of_alternative {ε α : Type} {outcome : Except ε α} {condition : Prop} {value : α}
    {fault : ε → Prop} (h : condition ∨ ∃ error, fault error)
    (hok : condition → outcome = .ok value)
    (herror : ∀ error, fault error → outcome = .error error) :
    (∀ result, outcome = .ok result ↔ condition ∧ result = value) ∧
      ∀ error, outcome = .error error ↔ fault error := by
  rcases h with hcondition | ⟨error, hfault⟩
  · rw [hok hcondition]
    refine ⟨fun result => by simp [hcondition, eq_comm], fun error => ⟨by simp, fun hfault => ?_⟩⟩
    exact (hok hcondition).symm.trans (herror error hfault)
  · have hno : ¬ condition := fun hcondition => by
      have := (hok hcondition).symm.trans (herror error hfault)
      simp at this
    rw [herror error hfault]
    refine ⟨fun result => by simp [hno], fun other => ⟨fun h => ?_, fun hother => ?_⟩⟩
    · rwa [← Except.error.inj h]
    · exact (herror error hfault).symm.trans (herror other hother)

section Items

variable {ε α β : Type}

/-- Items are read if each of them is. -/
theorem mapM_eq_ok_iff (f : α → Except ε β) (items : List α) :
    ∀ values, items.mapM f = .ok values ↔
      List.Forall₂ (fun item value => f item = .ok value) items values := by
  induction items with
  | nil => simp [pure, Except.pure, eq_comm]
  | cons item items ih =>
    intro values
    rw [List.mapM_cons, List.forall₂_cons_left_iff]
    simp only [← ih]
    cases f item with
    | error => simp [bind, Except.bind]
    | ok value => cases items.mapM f <;> simp [bind, Except.bind, pure, Except.pure, eq_comm]

/-- Items are read, without reasons for a refusal, if each of them is. -/
theorem mapM_eq_some_iff (f : α → Option β) (items : List α) :
    ∀ values, items.mapM f = some values ↔
      List.Forall₂ (fun item value => f item = some value) items values := by
  induction items with
  | nil => simp [eq_comm]
  | cons item items ih =>
    intro values
    rw [List.mapM_cons, List.forall₂_cons_left_iff]
    simp only [← ih]
    cases f item with
    | none => simp
    | some value => cases items.mapM f <;> simp [eq_comm]

/-- Items with their positions are read as values at the same positions. -/
theorem mapM_zipIdx_eq_ok_iff (f : α × ℕ → Except ε β) (items : List α) (values : List β) :
    items.zipIdx.mapM f = .ok values ↔ items.length = values.length ∧
      ∀ (i : ℕ) (hi : i < items.length) (hi' : i < values.length),
        f (items[i], i) = .ok values[i] := by
  rw [mapM_eq_ok_iff, List.forall₂_iff_get]
  simp

/-- Items are refused if one of them is, and for what the first one is. -/
theorem mapM_eq_error_iff (f : α → Except ε β) (items : List α) (error : ε) :
    items.mapM f = .error error ↔ ∃ (i : ℕ) (hi : i < items.length), f items[i] = .error error ∧
      ∀ (j : ℕ) (hj : j < items.length), j < i → ∃ value, f items[j] = .ok value := by
  induction items with
  | nil => simp [pure, Except.pure]
  | cons item items ih =>
    rw [List.mapM_cons]
    cases hitem : f item with
    | error cause =>
      show (Except.error cause : Except ε (List β)) = .error error ↔ _
      constructor
      · intro h
        obtain rfl := Except.error.inj h
        exact ⟨0, by simp, hitem, by simp⟩
      · rintro ⟨i, hi, h, hbefore⟩
        cases i with
        | zero =>
          obtain rfl := Except.error.inj (hitem.symm.trans h)
          rfl
        | succ i =>
          obtain ⟨value, hvalue⟩ := hbefore 0 (by simp) (by omega)
          exact absurd (hitem.symm.trans hvalue) (by simp)
    | ok value =>
      have hrest : (do let values ← items.mapM f; pure (value :: values)) = .error error ↔
          items.mapM f = .error error := by
        cases items.mapM f <;> simp [bind, Except.bind, pure, Except.pure]
      refine hrest.trans (ih.trans ⟨?_, ?_⟩)
      · rintro ⟨i, hi, h, hbefore⟩
        refine ⟨i + 1, by simpa using hi, h, fun j hj hlt => ?_⟩
        cases j with
        | zero => exact ⟨value, hitem⟩
        | succ j => exact hbefore j (by simpa using hj) (by omega)
      · rintro ⟨i, hi, h, hbefore⟩
        cases i with
        | zero => exact absurd (hitem.symm.trans h) (by simp)
        | succ i =>
          exact ⟨i, by simpa using hi, h, fun j hj hlt =>
            hbefore (j + 1) (by simpa using hj) (by omega)⟩

/-- Items are refused at their positions if one of them is, and for what the first one is. -/
theorem mapM_zipIdx_eq_error_iff (f : α × ℕ → Except ε β) (items : List α) (error : ε) :
    items.zipIdx.mapM f = .error error ↔ ∃ (i : ℕ) (hi : i < items.length),
      f (items[i], i) = .error error ∧
      ∀ (j : ℕ) (hj : j < items.length), j < i → ∃ value, f (items[j], j) = .ok value := by
  rw [mapM_eq_error_iff]
  simp

/-- Either every item of a list is good at its position, or there is a first that is not. -/
theorem forall_or_exists_first (good : ℕ → α → Prop) (items : List α) :
    (∀ (i : ℕ) (hi : i < items.length), good i items[i]) ∨
      ∃ (i : ℕ) (hi : i < items.length), ¬ good i items[i] ∧
        ∀ (j : ℕ) (hj : j < items.length), j < i → good j items[j] := by
  by_cases hall : ∀ (i : ℕ) (hi : i < items.length), good i items[i]
  · exact Or.inl hall
  · have hex : ∃ i, ∃ hi : i < items.length, ¬ good i items[i] := by
      simpa using hall
    classical
    obtain ⟨hi, hnot⟩ := Nat.find_spec hex
    refine Or.inr ⟨Nat.find hex, hi, hnot, fun j hj hlt => ?_⟩
    by_contra hbad
    exact Nat.find_min hex hlt ⟨hj, hbad⟩

end Items

end MipsListing
