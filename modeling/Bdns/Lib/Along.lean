import Mathlib

/-!
# Properties along a list

A property of every element of a list, given the elements before it. A log that grows at its end
keeps such properties of its elements, so they are proved once for each new element.
-/

namespace Bdns.Lib

variable {α : Type*} {Q : List α → α → Prop} {l : List α}

/-- Every element has the property, given the elements before it. -/
def Along (Q : List α → α → Prop) (l : List α) : Prop :=
  ∀ before a after, l = before ++ a :: after → Q before a

theorem along_nil : Along Q [] := by
  intro before a after hSplit
  simp at hSplit

theorem along_concat {a : α} : Along Q (l ++ [a]) ↔ Along Q l ∧ Q l a := by
  constructor
  · intro h
    refine ⟨fun before x after hSplit => h before x (after ++ [a]) ?_, h l a [] rfl⟩
    rw [hSplit, List.append_assoc, List.cons_append]
  · rintro ⟨hOld, hNew⟩ before x after hSplit
    rcases List.eq_nil_or_concat after with rfl | ⟨after, y, rfl⟩
    · obtain ⟨rfl, hSame⟩ := List.append_inj' hSplit rfl
      obtain rfl : a = x := by simpa using hSame
      exact hNew
    · rw [List.concat_eq_append, ← List.cons_append, ← List.append_assoc] at hSplit
      exact hOld before x after (List.append_inj' hSplit rfl).1

theorem along_append {l' : List α} :
    Along Q (l ++ l') ↔ Along Q l ∧ Along (fun before a => Q (l ++ before) a) l' := by
  induction l' using List.reverseRecOn with
  | nil => simp [along_nil]
  | append_singleton l' a ih => rw [← List.append_assoc, along_concat, along_concat, ih, and_assoc]

theorem along_iff_forall_mem {p : α → Prop} : Along (fun _ a => p a) l ↔ ∀ a ∈ l, p a := by
  constructor
  · intro h a ha
    obtain ⟨before, after, hSplit⟩ := List.append_of_mem ha
    exact h before a after hSplit
  · rintro h before a after rfl
    exact h a (by simp)

end Bdns.Lib
