import Mathlib

/-!
# Outcomes of Go code

A Go function returns or panics; a validator also stops early with a verdict. Both are
`Except`: `Go` for panics alone, `Except ε` with a richer `ε` where the code has further
ways to stop. A loop of the source is `List.foldlM`, and what one pass of its body
guarantees is carried to the whole run by `foldlM_invariant`.
-/

namespace Bdns.Lib

/-- What stops a Go program where it stands. -/
inductive Panic
  | nilDereference
  | indexOutOfRange
  | divideByZero
  | logPanic
  deriving DecidableEq

abbrev Go := Except Panic

variable {ε α β : Type}

@[simp] theorem bind_eq_ok {x : Except ε α} {f : α → Except ε β} {b : β} :
    (x >>= f) = .ok b ↔ ∃ a, x = .ok a ∧ f a = .ok b := by
  cases x with
  | error e => simp [bind, Except.bind]
  | ok a => simp [bind, Except.bind]

@[simp] theorem pure_eq_ok {a b : α} : (pure a : Except ε α) = .ok b ↔ a = b := by
  simp [pure, Except.pure]

@[simp] theorem throw_ne_ok {e : ε} {b : α} : (throw e : Except ε α) = .ok b ↔ False := by
  simp [throw, throwThe, MonadExceptOf.throw]

theorem ite_throw_eq_ok {p : Prop} [Decidable p] {e : ε} {x : Except ε α} {a : α} :
    (if p then throw e else x) = .ok a ↔ ¬ p ∧ x = .ok a := by
  by_cases h : p <;> simp [h]

/-- Go on if `p` holds, else stop with `e`. -/
def check (p : Prop) [Decidable p] (e : ε) : Except ε Unit := if p then pure () else throw e

@[simp] theorem check_eq_ok {p : Prop} [Decidable p] {e : ε} {u : Unit} :
    check p e = .ok u ↔ p := by
  unfold check
  split <;> simp_all

/-- The value of a computation that ends well; for runs that are evaluated. -/
def okOr (x : Except ε α) (d : α) : α := x.toOption.getD d

theorem exists_eq_ok {x : Except ε α} (h : x.isOk = true) : ∃ a, x = .ok a := by
  cases x with
  | error e => simp [Except.isOk, Except.toBool] at h
  | ok a => exact ⟨a, rfl⟩

theorem eq_ok_okOr {x : Except ε α} (h : x.isOk = true) (d : α) : x = .ok (okOr x d) := by
  obtain ⟨a, rfl⟩ := exists_eq_ok h
  rfl

theorem bind_ne_error {x : Except ε α} {f : α → Except ε β} {e : ε} (hx : x ≠ .error e)
    (hf : ∀ a, x = .ok a → f a ≠ .error e) : x >>= f ≠ .error e := by
  cases x with
  | error e' => exact fun h => hx (congrArg Except.error (Except.error.inj h))
  | ok a => exact hf a rfl

theorem bind_eq_error {x : Except ε α} {f : α → Except ε β} {e : ε} :
    (x >>= f) = .error e ↔ x = .error e ∨ ∃ a, x = .ok a ∧ f a = .error e := by
  cases x with
  | error e' => simp [bind, Except.bind]
  | ok a => simp [bind, Except.bind]

/-- A check of the result of a run that is evaluated. -/
theorem exists_of_any {x : Except ε α} {p : α → Bool} (h : x.toOption.any p = true) :
    ∃ a, x = .ok a ∧ p a = true := by
  cases x with
  | error e => simp [Except.toOption] at h
  | ok a => exact ⟨a, rfl, h⟩

/-- The error of a run that is evaluated, where its results cannot be compared. -/
theorem eq_error_of_map {x : Except ε α} {e : ε} (h : x.map (fun _ => ()) = .error e) :
    x = .error e := by
  cases x with
  | error e' => exact congrArg Except.error (Except.error.inj h)
  | ok a => cases h

/-- What every pass of a loop body preserves, the whole loop preserves. -/
theorem foldlM_invariant (I : β → Prop) {f : β → α → Except ε β} {xs : List α} {s s' : β}
    (hStep : ∀ a ∈ xs, ∀ t t', I t → f t a = .ok t' → I t') (hInit : I s)
    (hRun : xs.foldlM f s = .ok s') : I s' := by
  induction xs generalizing s with
  | nil =>
    obtain rfl : s = s' := by simpa using hRun
    exact hInit
  | cons a xs ih =>
    rw [List.foldlM_cons] at hRun
    obtain ⟨t, hHead, hTail⟩ := bind_eq_ok.mp hRun
    exact ih (fun b hb => hStep b (List.mem_cons_of_mem _ hb))
      (hStep a List.mem_cons_self s t hInit hHead) hTail

/-- Two loops whose bodies agree wherever an invariant of the first holds. -/
theorem foldlM_congr (I : β → Prop) {f g : β → α → Except ε β} {xs : List α} {s : β}
    (hStep : ∀ a ∈ xs, ∀ t t', I t → f t a = .ok t' → I t')
    (hEq : ∀ a ∈ xs, ∀ t, I t → f t a = g t a) (hInit : I s) :
    xs.foldlM f s = xs.foldlM g s := by
  induction xs generalizing s with
  | nil => rfl
  | cons a xs ih =>
    rw [List.foldlM_cons, List.foldlM_cons, ← hEq a List.mem_cons_self s hInit]
    cases hHead : f s a with
    | error e => rfl
    | ok t =>
      exact ih (fun b hb => hStep b (List.mem_cons_of_mem _ hb))
        (fun b hb => hEq b (List.mem_cons_of_mem _ hb))
        (hStep a List.mem_cons_self s t hInit hHead)

/-- A loop over two lists is one loop after the other. -/
theorem foldlM_append_eq_ok {f : β → α → Except ε β} {xs ys : List α} {s s' : β} :
    (xs ++ ys).foldlM f s = .ok s' ↔
      ∃ t, xs.foldlM f s = .ok t ∧ ys.foldlM f t = .ok s' := by
  rw [List.foldlM_append, bind_eq_ok]

theorem foldlM_concat_eq_ok {f : β → α → Except ε β} {xs : List α} {a : α} {s s' : β} :
    (xs ++ [a]).foldlM f s = .ok s' ↔ ∃ t, xs.foldlM f s = .ok t ∧ f t a = .ok s' := by
  simp

/-- A loop stops at the first element whose pass stops. -/
theorem foldlM_eq_error {f : β → α → Except ε β} {xs : List α} {s : β} {e : ε} :
    xs.foldlM f s = .error e ↔
      ∃ before a after t, xs = before ++ a :: after ∧ before.foldlM f s = .ok t ∧
        f t a = .error e := by
  constructor
  · intro hRun
    induction xs generalizing s with
    | nil => cases hRun
    | cons a xs ih =>
      rw [List.foldlM_cons] at hRun
      cases hHead : f s a with
      | error e' =>
        rw [hHead] at hRun
        obtain rfl : e' = e := Except.error.inj hRun
        exact ⟨[], a, xs, s, rfl, rfl, hHead⟩
      | ok t =>
        rw [hHead] at hRun
        obtain ⟨before, b, after, t', rfl, hBefore, hStop⟩ := ih hRun
        refine ⟨a :: before, b, after, t', rfl, ?_, hStop⟩
        rw [List.foldlM_cons, hHead]
        exact hBefore
  · rintro ⟨before, a, after, t, rfl, hBefore, hStop⟩
    rw [List.foldlM_append, hBefore]
    change (a :: after).foldlM f t = _
    rw [List.foldlM_cons, hStop]
    rfl

/-- Every element of a list is passed by a loop that ends well. -/
theorem foldlM_mem {f : β → α → Except ε β} {xs : List α} {s s' : β}
    (hRun : xs.foldlM f s = .ok s') {a : α} (ha : a ∈ xs) : ∃ t t', f t a = .ok t' := by
  obtain ⟨before, after, rfl⟩ := List.append_of_mem ha
  obtain ⟨t, -, hRest⟩ := foldlM_append_eq_ok.mp hRun
  rw [List.foldlM_cons] at hRest
  obtain ⟨t', hStep, -⟩ := bind_eq_ok.mp hRest
  exact ⟨t, t', hStep⟩

/-- Forward simulation of one loop by another over the same list: the relation may speak of
the elements passed so far. -/
theorem foldlM_simulation {ε' γ : Type} {f : β → α → Except ε β} {g : γ → α → Except ε' γ}
    {xs : List α} (R : List α → β → γ → Prop)
    (hStep : ∀ before a, before ++ [a] <+: xs → ∀ s t s', R before s t → f s a = .ok s' →
      ∃ t', g t a = .ok t' ∧ R (before ++ [a]) s' t')
    {s s' : β} {t : γ} (hInit : R [] s t) (hRun : xs.foldlM f s = .ok s') :
    ∃ t', xs.foldlM g t = .ok t' ∧ R xs s' t' := by
  suffices h : ∀ ys, ys <+: xs → ∀ s', ys.foldlM f s = .ok s' →
      ∃ t', ys.foldlM g t = .ok t' ∧ R ys s' t' from h xs (List.prefix_refl xs) s' hRun
  intro ys
  induction ys using List.reverseRecOn with
  | nil =>
    intro _ s' hRun
    obtain rfl : s = s' := by simpa using hRun
    exact ⟨t, rfl, hInit⟩
  | append_singleton before a ih =>
    intro hPrefix s' hRun
    obtain ⟨s₁, hBefore, hLast⟩ := foldlM_concat_eq_ok.mp hRun
    obtain ⟨t₁, hBefore', hR⟩ := ih ((List.prefix_append before [a]).trans hPrefix) s₁ hBefore
    obtain ⟨t', hLast', hR'⟩ := hStep before a hPrefix s₁ t₁ s' hR hLast
    exact ⟨t', foldlM_concat_eq_ok.mpr ⟨t₁, hBefore', hLast'⟩, hR'⟩

/-! ## Two runs that stop together -/

/-- Both runs stop early, or both return, and their results are related. -/
def Lockstep {ε' γ : Type} (R : α → γ → Prop) : Except ε α → Except ε' γ → Prop
  | .ok a, .ok c => R a c
  | .error _, .error _ => True
  | _, _ => False

namespace Lockstep

variable {ε' γ δ : Type} {R : α → γ → Prop} {S : β → δ → Prop}

theorem refl {R : α → α → Prop} (h : ∀ a, R a a) (x : Except ε α) : Lockstep R x x := by
  cases x with
  | error e => trivial
  | ok a => exact h a

theorem bind {x : Except ε α} {y : Except ε' γ} {f : α → Except ε β} {g : γ → Except ε' δ}
    (h : Lockstep R x y) (hNext : ∀ a c, R a c → Lockstep S (f a) (g c)) :
    Lockstep S (x >>= f) (y >>= g) := by
  cases x with
  | error e =>
    cases y with
    | error e' => trivial
    | ok c => exact h.elim
  | ok a =>
    cases y with
    | error e' => exact h.elim
    | ok c => exact hNext a c h

/-- A step that is the same on both sides. -/
theorem bind_same {x : Except ε α} {f : α → Except ε β} {g : α → Except ε δ}
    (hNext : ∀ a, x = .ok a → Lockstep S (f a) (g a)) : Lockstep S (x >>= f) (x >>= g) := by
  cases x with
  | error e => trivial
  | ok a => exact hNext a rfl

theorem exists_ok {x : Except ε α} {y : Except ε' γ} {a : α} (h : Lockstep R x y)
    (hx : x = .ok a) : ∃ c, y = .ok c ∧ R a c := by
  subst hx
  cases y with
  | error e' => exact h.elim
  | ok c => exact ⟨c, rfl, h⟩

/-- Two loops over one list whose bodies stop together. -/
theorem foldlM {f : β → α → Except ε β} {g : δ → α → Except ε' δ} {xs : List α} {s : β} {t : δ}
    (hStep : ∀ a ∈ xs, ∀ s t, S s t → Lockstep S (f s a) (g t a)) (hInit : S s t) :
    Lockstep S (xs.foldlM f s) (xs.foldlM g t) := by
  induction xs generalizing s t with
  | nil => exact hInit
  | cons a xs ih =>
    rw [List.foldlM_cons, List.foldlM_cons]
    refine bind (hStep a List.mem_cons_self s t hInit) fun s' t' hNext => ?_
    exact ih (fun b hb => hStep b (List.mem_cons_of_mem _ hb)) hNext

end Lockstep

end Bdns.Lib
