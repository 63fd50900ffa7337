import Mathlib

/-!
# Totals over finite maps

The program keeps its books in maps from keys to records, and what is conserved is a sum
over all records. `total` is that sum over an extensional tree map. Every change of a map
goes through `insert` or `erase`, so two permutations of the list of entries carry all the
facts: an entry can be moved to the front (`toList_perm_cons_erase`), and an insertion puts
its entry in front of the erased map (`toList_insert_perm`).
-/

namespace Bdns.Lib

open Std

variable {K V : Type} {cmp : K → K → Ordering} [TransCmp cmp] [LawfulEqCmp cmp]

theorem getElem?_insert_eq_ite [DecidableEq K] (m : ExtTreeMap K V cmp) (k k' : K) (v : V) :
    (m.insert k v)[k']? = if k = k' then some v else m[k']? := by
  rw [ExtTreeMap.getElem?_insert]
  split <;> split <;> simp_all

theorem getElem?_erase_eq_ite [DecidableEq K] (m : ExtTreeMap K V cmp) (k k' : K) :
    (m.erase k)[k']? = if k = k' then none else m[k']? := by
  rw [ExtTreeMap.getElem?_erase]
  split <;> split <;> simp_all

theorem insert_of_getElem?_some {m : ExtTreeMap K V cmp} {k : K} {v : V} (h : m[k]? = some v) :
    m.insert k v = m := by
  classical
  apply ExtTreeMap.ext_getElem?
  intro k'
  rw [getElem?_insert_eq_ite]
  split
  · rename_i hk
    exact hk ▸ h.symm
  · rfl

theorem erase_of_getElem?_none {m : ExtTreeMap K V cmp} {k : K} (h : m[k]? = none) :
    m.erase k = m := by
  classical
  apply ExtTreeMap.ext_getElem?
  intro k'
  rw [getElem?_erase_eq_ite]
  split
  · rename_i hk
    exact hk ▸ h.symm
  · rfl

theorem toList_nodup (m : ExtTreeMap K V cmp) : m.toList.Nodup := by
  refine (ExtTreeMap.distinct_keys_toList (t := m)).imp ?_
  rintro a b hab rfl
  exact hab ReflCmp.compare_self

theorem toList_insert_perm (m : ExtTreeMap K V cmp) (k : K) (v : V) :
    (m.insert k v).toList.Perm ((k, v) :: (m.erase k).toList) := by
  classical
  refine (List.perm_ext_iff_of_nodup (toList_nodup _) ?_).mpr ?_
  · refine List.nodup_cons.mpr ⟨?_, toList_nodup _⟩
    simp [ExtTreeMap.mem_toList_iff_getElem?_eq_some]
  · rintro ⟨k', v'⟩
    rw [ExtTreeMap.mem_toList_iff_getElem?_eq_some, List.mem_cons,
      ExtTreeMap.mem_toList_iff_getElem?_eq_some, getElem?_insert_eq_ite, getElem?_erase_eq_ite]
    by_cases hk : k = k'
    · subst hk
      simp only [↓reduceIte, Option.some.injEq, Prod.mk.injEq, true_and, reduceCtorEq, or_false]
      exact eq_comm
    · simp [hk, Ne.symm hk]

theorem toList_perm_cons_erase {m : ExtTreeMap K V cmp} {k : K} {v : V} (h : m[k]? = some v) :
    m.toList.Perm ((k, v) :: (m.erase k).toList) := by
  simpa only [insert_of_getElem?_some h] using toList_insert_perm m k v

/-- The sum of a measure over all records of a map. -/
def total (f : V → Nat) (m : ExtTreeMap K V cmp) : Nat := (m.toList.map fun e => f e.2).sum

theorem total_insert (f : V → Nat) (m : ExtTreeMap K V cmp) (k : K) (v : V) :
    total f (m.insert k v) = f v + total f (m.erase k) := by
  simpa [total] using ((toList_insert_perm m k v).map fun e => f e.2).sum_eq

theorem total_eq_add_erase (f : V → Nat) {m : ExtTreeMap K V cmp} {k : K} {v : V}
    (h : m[k]? = some v) : total f m = f v + total f (m.erase k) := by
  simpa [total] using ((toList_perm_cons_erase h).map fun e => f e.2).sum_eq

theorem le_total (f : V → Nat) {m : ExtTreeMap K V cmp} {k : K} {v : V} (h : m[k]? = some v) :
    f v ≤ total f m := by
  rw [total_eq_add_erase f h]
  omega

/-- Replacing the record of `k`, or adding one, trades the old measure for the new one. -/
theorem total_insert_add (f : V → Nat) (m : ExtTreeMap K V cmp) (k : K) (v : V) :
    total f (m.insert k v) + (m[k]?.map f).getD 0 = total f m + f v := by
  rw [total_insert]
  cases h : m[k]? with
  | none => simp [erase_of_getElem?_none h]; omega
  | some old => simp [total_eq_add_erase f h]; omega

theorem total_erase_add (f : V → Nat) (m : ExtTreeMap K V cmp) (k : K) :
    total f (m.erase k) + (m[k]?.map f).getD 0 = total f m := by
  cases h : m[k]? with
  | none => simp [erase_of_getElem?_none h]
  | some old => simp [total_eq_add_erase f h]; omega

/-- A map with smaller values has the smaller total. -/
theorem total_mono (f : V → Nat) {m m' : ExtTreeMap K V cmp}
    (h : ∀ k : K, ((m[k]?).map f).getD 0 ≤ ((m'[k]?).map f).getD 0) : total f m ≤ total f m' := by
  classical
  induction hSize : m.size using Nat.strong_induction_on generalizing m m' with
  | _ n ih =>
    cases hList : m.toList with
    | nil => simp [total, hList]
    | cons e rest =>
      -- compare the two maps without the first key, and the values under it
      have he : m[e.1]? = some e.2 := by
        rw [← ExtTreeMap.mem_toList_iff_getElem?_eq_some, hList]
        exact List.mem_cons_self
      have hLess : (m.erase e.1).size < n := by
        have hMem : m.contains e.1 = true := by
          rw [ExtTreeMap.contains_eq_isSome_getElem?, he]
          rfl
        have hPos : 0 < m.size := by
          rw [← ExtTreeMap.length_toList, hList]
          simp
        rw [ExtTreeMap.size_erase, if_pos hMem]
        omega
      have hRest : total f (m.erase e.1) ≤ total f (m'.erase e.1) := by
        refine ih _ hLess (fun k => ?_) rfl
        rw [getElem?_erase_eq_ite, getElem?_erase_eq_ite]
        split
        · exact Nat.le_refl _
        · exact h k
      have hKey := h e.1
      have hLeft := total_erase_add f m e.1
      have hRight := total_erase_add f m' e.1
      omega

/-! ## Maps built from lists -/

/-- The values of a map to which values with new keys were added one by one. -/
theorem toList_foldl_insert_perm {key : V → K} {vs : List V} {m : ExtTreeMap K V cmp}
    (hNodup : (vs.map key).Nodup) (hNew : ∀ v ∈ vs, m[key v]? = none) :
    ((vs.foldl (fun m v => m.insert (key v) v) m).toList.map Prod.snd).Perm
      (m.toList.map Prod.snd ++ vs) := by
  classical
  induction vs generalizing m with
  | nil => simp
  | cons v vs ih =>
    obtain ⟨hNotMem, hNodup⟩ := List.nodup_cons.mp hNodup
    refine (ih hNodup ?_).trans ?_
    · intro v' hv'
      have hNe : key v ≠ key v' := fun h => hNotMem (List.mem_map.mpr ⟨v', hv', h.symm⟩)
      rw [getElem?_insert_eq_ite, if_neg hNe]
      exact hNew v' (List.mem_cons_of_mem _ hv')
    · have hInsert := (toList_insert_perm m (key v) v).map Prod.snd
      rw [erase_of_getElem?_none (hNew v List.mem_cons_self)] at hInsert
      exact (hInsert.append_right vs).trans List.perm_middle.symm

theorem getElem?_foldl_insert_of_not_mem {key : V → K} {vs : List V} {m : ExtTreeMap K V cmp}
    {k : K} (hk : k ∉ vs.map key) :
    (vs.foldl (fun m v => m.insert (key v) v) m)[k]? = m[k]? := by
  classical
  induction vs generalizing m with
  | nil => rfl
  | cons v vs ih =>
    rw [List.map_cons, List.mem_cons, not_or] at hk
    rw [List.foldl_cons, ih hk.2, getElem?_insert_eq_ite, if_neg fun h => hk.1 h.symm]

/-! ## Iteration order -/

/-- The orders in which the loops over a map visit its entries, one for every loop. Go leaves
them open; nothing else is known of them. -/
structure RangeOrder (K V : Type) where
  run : Nat → List (K × V) → List (K × V)
  perm : ∀ i xs, (run i xs).Perm xs

/-- The order of the keys. -/
def RangeOrder.ascending (K V : Type) : RangeOrder K V := ⟨fun _ xs => xs, fun _ _ => .refl _⟩

/-- A loop that can find one value only finds it in every order. -/
theorem findSome?_eq_of_perm {α β : Type} {f : α → Option β} {xs ys : List α} (hPerm : xs.Perm ys)
    (hOne : ∀ a ∈ xs, ∀ a' ∈ xs, ∀ b b', f a = some b → f a' = some b' → b = b') :
    xs.findSome? f = ys.findSome? f := by
  cases hx : xs.findSome? f with
  | none =>
    rw [List.findSome?_eq_none_iff] at hx
    exact (List.findSome?_eq_none_iff.mpr fun a ha => hx a (hPerm.mem_iff.mpr ha)).symm
  | some b =>
    obtain ⟨a, ha, hb⟩ := List.exists_of_findSome?_eq_some hx
    cases hy : ys.findSome? f with
    | none =>
      have hNone := List.findSome?_eq_none_iff.mp hy a (hPerm.mem_iff.mp ha)
      exact absurd (hb.symm.trans hNone) (by simp)
    | some b' =>
      obtain ⟨a', ha', hb'⟩ := List.exists_of_findSome?_eq_some hy
      rw [hOne a ha a' (hPerm.mem_iff.mpr ha') b b' hb hb']

end Bdns.Lib
