import Mathlib

/-!
# Association lists in ascending order of their keys

The in-order list of a search tree. What a tree operation does is stated on this list, where
a rotation does nothing and an insertion is `alter`.
-/

namespace Bdns.Lib

open Std

variable {K α : Type*} {cmp : K → K → Ordering}

/-- The keys ascend strictly. -/
def Ascending (cmp : K → K → Ordering) (xs : List (K × α)) : Prop :=
  xs.Pairwise fun a b => cmp a.1 b.1 = .lt

/-- The value of the first entry with a key. -/
def assocLookup (cmp : K → K → Ordering) (k : K) : List (K × α) → Option α
  | [] => none
  | e :: xs => if cmp k e.1 = .eq then some e.2 else assocLookup cmp k xs

/-- Replaces the value under a key, or inserts one where it keeps the order. -/
def alter (cmp : K → K → Ordering) (k : K) (f : Option α → α) : List (K × α) → List (K × α)
  | [] => [(k, f none)]
  | e :: xs =>
    match cmp k e.1 with
    | .lt => (k, f none) :: e :: xs
    | .eq => (e.1, f (some e.2)) :: xs
    | .gt => e :: alter cmp k f xs

/-- Drops the entries under a key. -/
def eraseKey (cmp : K → K → Ordering) (k : K) (xs : List (K × α)) : List (K × α) :=
  xs.filter fun e => cmp k e.1 != .eq

theorem ascending_append_cons {l r : List (K × α)} {e : K × α} :
    Ascending cmp (l ++ e :: r) ↔
      Ascending cmp l ∧ Ascending cmp r ∧ (∀ a ∈ l, cmp a.1 e.1 = .lt) ∧
        (∀ b ∈ r, cmp e.1 b.1 = .lt) ∧ ∀ a ∈ l, ∀ b ∈ r, cmp a.1 b.1 = .lt := by
  simp only [Ascending, List.pairwise_append, List.pairwise_cons, List.mem_cons,
    forall_eq_or_imp]
  constructor
  · rintro ⟨hl, ⟨her, hr⟩, h⟩
    exact ⟨hl, hr, fun a ha => (h a ha).1, her, fun a ha => (h a ha).2⟩
  · rintro ⟨hl, hr, hle, her, h⟩
    exact ⟨hl, ⟨her, hr⟩, fun a ha => ⟨hle a ha, h a ha⟩⟩

theorem assocLookup_append (k : K) (xs ys : List (K × α)) :
    assocLookup cmp k (xs ++ ys) = (assocLookup cmp k xs).or (assocLookup cmp k ys) := by
  induction xs with
  | nil => simp [assocLookup]
  | cons e xs ih =>
    simp only [List.cons_append, assocLookup]
    split
    · rfl
    · exact ih

theorem assocLookup_eq_none {k : K} {xs : List (K × α)} (h : ∀ e ∈ xs, cmp k e.1 ≠ .eq) :
    assocLookup cmp k xs = none := by
  induction xs with
  | nil => rfl
  | cons e xs ih =>
    rw [assocLookup, if_neg (h e List.mem_cons_self)]
    exact ih fun e he => h e (List.mem_cons_of_mem _ he)

theorem exists_mem_of_assocLookup [LawfulEqCmp cmp] {k : K} {a : α} {xs : List (K × α)}
    (h : assocLookup cmp k xs = some a) : (k, a) ∈ xs := by
  induction xs with
  | nil => simp [assocLookup] at h
  | cons e xs ih =>
    rw [assocLookup] at h
    split at h
    · rename_i hEq
      obtain rfl := LawfulEqCmp.eq_of_compare hEq
      obtain rfl := Option.some.inj h
      exact List.mem_cons_self
    · exact List.mem_cons_of_mem _ (ih h)

/-- Below the middle of an ascending list only the left half matters. -/
theorem alter_append_cons_lt {k : K} {f : Option α → α} {l r : List (K × α)} {e : K × α}
    (hLt : cmp k e.1 = .lt) : alter cmp k f (l ++ e :: r) = alter cmp k f l ++ e :: r := by
  induction l with
  | nil => simp [alter, hLt]
  | cons a l ih =>
    simp only [List.cons_append, alter]
    cases cmp k a.1 <;> simp [ih]

theorem mem_alter_fst {k : K} {f : Option α → α} {xs : List (K × α)} {e : K × α}
    (h : e ∈ alter cmp k f xs) : e.1 = k ∨ ∃ a, (e.1, a) ∈ xs := by
  induction xs with
  | nil => exact Or.inl (by rw [List.mem_singleton.mp h])
  | cons b xs ih =>
    unfold alter at h
    split at h
    · rcases List.mem_cons.mp h with rfl | h
      · exact Or.inl rfl
      · exact Or.inr ⟨e.2, h⟩
    · rcases List.mem_cons.mp h with rfl | h
      · exact Or.inr ⟨b.2, List.mem_cons_self⟩
      · exact Or.inr ⟨e.2, List.mem_cons_of_mem _ h⟩
    · rcases List.mem_cons.mp h with rfl | h
      · exact Or.inr ⟨e.2, List.mem_cons_self⟩
      · rcases ih h with hk | ⟨a, ha⟩
        · exact Or.inl hk
        · exact Or.inr ⟨a, List.mem_cons_of_mem _ ha⟩

/-- An altered list holds old entries and the new one. -/
theorem mem_alter {k : K} {f : Option α → α} {xs : List (K × α)} {e : K × α}
    (h : e ∈ alter cmp k f xs) : e ∈ xs ∨ ∃ old, e.2 = f old := by
  induction xs with
  | nil => exact Or.inr ⟨none, by rw [List.mem_singleton.mp h]⟩
  | cons b xs ih =>
    unfold alter at h
    split at h
    · rcases List.mem_cons.mp h with rfl | h
      · exact Or.inr ⟨none, rfl⟩
      · exact Or.inl h
    · rcases List.mem_cons.mp h with rfl | h
      · exact Or.inr ⟨some b.2, rfl⟩
      · exact Or.inl (List.mem_cons_of_mem _ h)
    · rcases List.mem_cons.mp h with rfl | h
      · exact Or.inl List.mem_cons_self
      · rcases ih h with h | h
        · exact Or.inl (List.mem_cons_of_mem _ h)
        · exact Or.inr h

theorem eraseKey_eq_self {k : K} {xs : List (K × α)} (h : ∀ e ∈ xs, cmp k e.1 ≠ .eq) :
    eraseKey cmp k xs = xs :=
  List.filter_eq_self.mpr fun e he => bne_iff_ne.mpr (h e he)

theorem eraseKey_append_cons {k : K} {l r : List (K × α)} {e : K × α} :
    eraseKey cmp k (l ++ e :: r) =
      eraseKey cmp k l ++ if cmp k e.1 = .eq then eraseKey cmp k r else e :: eraseKey cmp k r := by
  rw [eraseKey, List.filter_append, List.filter_cons]
  by_cases hEq : cmp k e.1 = .eq
  · rw [if_pos hEq, if_neg (by simp [hEq])]
    rfl
  · rw [if_neg hEq, if_pos (by simpa using hEq)]
    rfl

theorem ascending_eraseKey {k : K} {xs : List (K × α)} (h : Ascending cmp xs) :
    Ascending cmp (eraseKey cmp k xs) :=
  List.Pairwise.filter _ h

section Order

variable [TransCmp cmp]

theorem cmp_gt_of_lt {k k' : K} (h : cmp k k' = .lt) : cmp k' k = .gt :=
  OrientedCmp.gt_of_lt h

/-- Above the middle only the right half matters. -/
theorem alter_append_cons_gt {k : K} {f : Option α → α} {l r : List (K × α)} {e : K × α}
    (hLeft : ∀ a ∈ l, cmp a.1 e.1 = .lt) (hGt : cmp k e.1 = .gt) :
    alter cmp k f (l ++ e :: r) = l ++ e :: alter cmp k f r := by
  induction l with
  | nil => simp [alter, hGt]
  | cons a l ih =>
    have ha : cmp k a.1 = .gt :=
      TransCmp.gt_trans hGt (cmp_gt_of_lt (hLeft a List.mem_cons_self))
    simp only [List.cons_append, alter, ha]
    rw [ih fun b hb => hLeft b (List.mem_cons_of_mem _ hb)]

theorem alter_append_cons_eq {k : K} {f : Option α → α} {l r : List (K × α)} {e : K × α}
    (hLeft : ∀ a ∈ l, cmp a.1 e.1 = .lt) (hEq : cmp k e.1 = .eq) :
    alter cmp k f (l ++ e :: r) = l ++ (e.1, f (some e.2)) :: r := by
  induction l with
  | nil => simp [alter, hEq]
  | cons a l ih =>
    have ha : cmp k a.1 = .gt := by
      rw [TransCmp.congr_left hEq]
      exact cmp_gt_of_lt (hLeft a List.mem_cons_self)
    simp only [List.cons_append, alter, ha]
    rw [ih fun b hb => hLeft b (List.mem_cons_of_mem _ hb)]

theorem assocLookup_append_cons_lt {k : K} {l r : List (K × α)} {e : K × α}
    (hRight : ∀ b ∈ r, cmp e.1 b.1 = .lt) (hLt : cmp k e.1 = .lt) :
    assocLookup cmp k (l ++ e :: r) = assocLookup cmp k l := by
  have hNone : assocLookup cmp k (e :: r) = none := by
    refine assocLookup_eq_none fun b hb => ?_
    rcases List.mem_cons.mp hb with rfl | hb
    · simp [hLt]
    · simp [TransCmp.lt_trans hLt (hRight b hb)]
  rw [assocLookup_append, hNone, Option.or_none]

theorem assocLookup_append_cons_gt {k : K} {l r : List (K × α)} {e : K × α}
    (hLeft : ∀ a ∈ l, cmp a.1 e.1 = .lt) (hGt : cmp k e.1 = .gt) :
    assocLookup cmp k (l ++ e :: r) = assocLookup cmp k r := by
  have hNone : assocLookup cmp k l = none :=
    assocLookup_eq_none fun a ha => by
      simp [TransCmp.gt_trans hGt (cmp_gt_of_lt (hLeft a ha))]
  rw [assocLookup_append, hNone, Option.none_or, assocLookup, if_neg (by simp [hGt])]

theorem assocLookup_append_cons_eq {k : K} {l r : List (K × α)} {e : K × α}
    (hLeft : ∀ a ∈ l, cmp a.1 e.1 = .lt) (hEq : cmp k e.1 = .eq) :
    assocLookup cmp k (l ++ e :: r) = some e.2 := by
  have hNone : assocLookup cmp k l = none :=
    assocLookup_eq_none fun a ha => by
      rw [TransCmp.congr_left hEq]
      simp [cmp_gt_of_lt (hLeft a ha)]
  rw [assocLookup_append, hNone, Option.none_or, assocLookup, if_pos hEq]

theorem ascending_alter {k : K} {f : Option α → α} {xs : List (K × α)} (h : Ascending cmp xs) :
    Ascending cmp (alter cmp k f xs) := by
  induction xs with
  | nil => exact List.pairwise_singleton _ _
  | cons e xs ih =>
    obtain ⟨hHead, hTail⟩ := List.pairwise_cons.mp h
    unfold alter
    split
    · rename_i hLt
      refine List.pairwise_cons.mpr ⟨fun b hb => ?_, h⟩
      rcases List.mem_cons.mp hb with rfl | hb
      · exact hLt
      · exact TransCmp.lt_trans hLt (hHead b hb)
    · exact List.pairwise_cons.mpr ⟨hHead, hTail⟩
    · rename_i hGt
      refine List.pairwise_cons.mpr ⟨fun b hb => ?_, ih hTail⟩
      rcases mem_alter_fst hb with hk | ⟨a, ha⟩
      · rw [hk]
        exact OrientedCmp.lt_of_gt hGt
      · exact hHead (b.1, a) ha

/-- An ascending list finds each of its entries. -/
theorem assocLookup_of_mem {e : K × α} {xs : List (K × α)} (h : Ascending cmp xs) (he : e ∈ xs) :
    assocLookup cmp e.1 xs = some e.2 := by
  obtain ⟨l, r, rfl⟩ := List.append_of_mem he
  exact assocLookup_append_cons_eq (ascending_append_cons.mp h).2.2.1 ReflCmp.compare_self

/-- Looking up after `alter`. -/
theorem assocLookup_alter {k k' : K} {f : Option α → α} {xs : List (K × α)}
    (h : Ascending cmp xs) :
    assocLookup cmp k' (alter cmp k f xs) =
      if cmp k' k = .eq then some (f (assocLookup cmp k xs)) else assocLookup cmp k' xs := by
  induction xs with
  | nil => simp [alter, assocLookup]
  | cons e xs ih =>
    obtain ⟨hHead, hTail⟩ := List.pairwise_cons.mp h
    unfold alter
    split
    · rename_i hLt
      have hNone : assocLookup cmp k (e :: xs) = none := by
        refine assocLookup_eq_none fun b hb => ?_
        rcases List.mem_cons.mp hb with rfl | hb
        · simp [hLt]
        · simp [TransCmp.lt_trans hLt (hHead b hb)]
      rw [hNone, assocLookup]
    · rename_i hEq
      have hSame : (cmp k' e.1 = .eq) = (cmp k' k = .eq) := by rw [TransCmp.congr_right hEq]
      simp only [assocLookup, hEq, if_true, hSame]
      split <;> rfl
    · rename_i hGt
      rw [assocLookup, ih hTail]
      have hNe : ¬ cmp k e.1 = .eq := by simp [hGt]
      rw [assocLookup, assocLookup, if_neg hNe]
      by_cases hk : cmp k' k = .eq
      · rw [if_pos hk, TransCmp.congr_left hk, if_neg hNe, if_pos hk]
      · rw [if_neg hk, if_neg hk]

theorem eraseKey_append_cons_lt {k : K} {l r : List (K × α)} {e : K × α}
    (hRight : ∀ b ∈ r, cmp e.1 b.1 = .lt) (hLt : cmp k e.1 = .lt) :
    eraseKey cmp k (l ++ e :: r) = eraseKey cmp k l ++ e :: r := by
  have hKeep : eraseKey cmp k r = r :=
    eraseKey_eq_self fun b hb => by simp [TransCmp.lt_trans hLt (hRight b hb)]
  rw [eraseKey_append_cons, hKeep, if_neg (by simp [hLt])]

theorem eraseKey_append_cons_gt {k : K} {l r : List (K × α)} {e : K × α}
    (hLeft : ∀ a ∈ l, cmp a.1 e.1 = .lt) (hGt : cmp k e.1 = .gt) :
    eraseKey cmp k (l ++ e :: r) = l ++ e :: eraseKey cmp k r := by
  have hKeep : eraseKey cmp k l = l :=
    eraseKey_eq_self fun a ha => by simp [TransCmp.gt_trans hGt (cmp_gt_of_lt (hLeft a ha))]
  rw [eraseKey_append_cons, hKeep, if_neg (by simp [hGt])]

/-- At the middle only the middle goes. -/
theorem eraseKey_append_cons_eq {k : K} {l r : List (K × α)} {e : K × α}
    (hLeft : ∀ a ∈ l, cmp a.1 e.1 = .lt) (hRight : ∀ b ∈ r, cmp e.1 b.1 = .lt)
    (hEq : cmp k e.1 = .eq) : eraseKey cmp k (l ++ e :: r) = l ++ r := by
  have hKeepLeft : eraseKey cmp k l = l := eraseKey_eq_self fun a ha => by
    rw [TransCmp.congr_left hEq]
    simp [cmp_gt_of_lt (hLeft a ha)]
  have hKeepRight : eraseKey cmp k r = r := eraseKey_eq_self fun b hb => by
    rw [TransCmp.congr_left hEq]
    simp [hRight b hb]
  rw [eraseKey_append_cons, if_pos hEq, hKeepLeft, hKeepRight]

/-- Looking up after `eraseKey`. -/
theorem assocLookup_eraseKey {k k' : K} (xs : List (K × α)) :
    assocLookup cmp k' (eraseKey cmp k xs) =
      if cmp k' k = .eq then none else assocLookup cmp k' xs := by
  by_cases hk : cmp k' k = .eq
  · rw [if_pos hk]
    refine assocLookup_eq_none fun e he => ?_
    rw [TransCmp.congr_left hk]
    exact bne_iff_ne.mp (List.mem_filter.mp he).2
  · rw [if_neg hk]
    induction xs with
    | nil => rfl
    | cons e xs ih =>
      unfold eraseKey at ih ⊢
      rw [List.filter_cons]
      by_cases hEq : cmp k e.1 = .eq
      · have hOther : ¬ cmp k' e.1 = .eq := by rwa [← TransCmp.congr_right hEq]
        rw [if_neg (by simp [hEq]), ih, assocLookup, if_neg hOther]
      · rw [if_pos (by simpa using hEq), assocLookup, ih, assocLookup]

end Order

/-! ## Sorting by a key -/

section SortBy

variable {β : Type*} [TransCmp cmp] [LawfulEqCmp cmp]

/-- Sorting by distinct keys forgets the order it was given. -/
theorem insertionSort_eq_of_perm {key : β → K} {xs ys : List β} (hPerm : xs.Perm ys)
    (hNodup : (xs.map key).Nodup) :
    xs.insertionSort (fun a b => (cmp (key a) (key b)).isLE) =
      ys.insertionSort (fun a b => (cmp (key a) (key b)).isLE) := by
  let le : β → β → Prop := fun a b => (cmp (key a) (key b)).isLE = true
  have : Std.Total le := ⟨fun a b => by
    cases h : cmp (key a) (key b) with
    | lt => exact Or.inl (by simp [le, h])
    | eq => exact Or.inl (by simp [le, h])
    | gt => exact Or.inr (by simp [le, OrientedCmp.lt_of_gt h])⟩
  have : IsTrans β le := ⟨fun a b c => TransCmp.isLE_trans⟩
  have hSorted := (List.perm_insertionSort le xs).trans (hPerm.trans
    (List.perm_insertionSort le ys).symm)
  refine hSorted.eq_of_pairwise ?_ (List.pairwise_insertionSort le xs)
    (List.pairwise_insertionSort le ys)
  intro a b ha hb hab hba
  have hKey := LawfulEqCmp.eq_of_compare (OrientedCmp.isLE_antisymm hab hba)
  have ha' := (List.perm_insertionSort le xs).mem_iff.mp ha
  have hb' := hPerm.mem_iff.mpr ((List.perm_insertionSort le ys).mem_iff.mp hb)
  exact List.inj_on_of_nodup_map hNodup ha' hb' hKey

end SortBy

end Bdns.Lib
