import Mathlib

/-!
# Numerals, most significant digit first

Texts of numbers start with the most significant digit, `Nat.digits` with the least significant
one. Reading a numeral digit by digit gives the number, and writing the number again gives the
numeral without its leading zeros.
-/

namespace Bdns.Lib

variable {b : ℕ} {ds : List ℕ}

theorem foldl_digit {α : Type*} [CommSemiring α] (b : α) (ds : List ℕ) :
    ds.foldl (fun (n : α) (d : ℕ) => n * b + d) 0 = Nat.ofDigits b ds.reverse := by
  rw [Nat.ofDigits_eq_foldr, List.foldr_reverse]
  congr 1
  funext n d
  ring

/-- A number is written without leading zeros. -/
theorem digits_ofDigits_reverse (hBase : 1 < b) (hDigits : ∀ d ∈ ds, d < b) :
    (Nat.digits b (Nat.ofDigits b ds.reverse)).reverse = ds.dropWhile (· = 0) := by
  induction ds with
  | nil => simp
  | cons d ds ih =>
    by_cases hd : d = 0
    · rw [hd, Nat.ofDigits_reverse_zero_cons, ih fun x hx => hDigits x (List.mem_cons_of_mem _ hx)]
      simp
    · rw [Nat.digits_ofDigits b hBase _ (fun x hx => hDigits x (List.mem_reverse.mp hx))
        (fun _ => by simpa using hd), List.reverse_reverse]
      simp [hd]

/-- The first digit that is written is not zero. -/
theorem head_digits_reverse (b n : ℕ) : (Nat.digits b n).reverse.head? ≠ some 0 := by
  rw [List.head?_reverse]
  intro hZero
  obtain ⟨front, hFront⟩ := List.getLast?_eq_some_iff.mp hZero
  have hSome : Nat.digits b n ≠ [] := by simp [hFront]
  refine Nat.getLast_digit_ne_zero b (Nat.digits_ne_nil_iff_ne_zero.mp hSome) ?_
  simp [hFront]

end Bdns.Lib
