import Bdns.Lib.FiniteMap
import Bdns.Lib.Outcome

/-!
# Two computations side by side

Two inputs that agree element by element, or key by key, and what loops, searches and sorting
make of them.
-/

namespace Bdns.Lib

open Std

/-! ## Lists that agree element by element -/

section Lists

variable {α β γ δ : Type} {Q : α → β → Prop} {xs : List α} {ys : List β}

/-- Two loops over lists that agree element by element. -/
theorem Lockstep.foldlM_forall₂ {ε ε' : Type} {S : γ → δ → Prop} {f : γ → α → Except ε γ}
    {g : δ → β → Except ε' δ} {s : γ} {t : δ}
    (hStep : ∀ a b, Q a b → ∀ s t, S s t → Lockstep S (f s a) (g t b))
    (hLists : List.Forall₂ Q xs ys) (hInit : S s t) :
    Lockstep S (xs.foldlM f s) (ys.foldlM g t) := by
  induction hLists generalizing s t with
  | nil => exact hInit
  | @cons a b xs ys hFirst _ ih =>
    rw [List.foldlM_cons, List.foldlM_cons]
    exact .bind (hStep a b hFirst s t hInit) fun s' t' hNext => ih hNext

theorem isSome_eq_of_rel {a : Option α} {b : Option β} (h : Option.Rel Q a b) :
    a.isSome = b.isSome := by
  cases h <;> rfl

/-- A search through two lists that agree element by element. -/
theorem findSome?_rel {R : γ → δ → Prop} {f : α → Option γ} {g : β → Option δ}
    (hFound : ∀ a b, Q a b → Option.Rel R (f a) (g b)) (h : List.Forall₂ Q xs ys) :
    Option.Rel R (xs.findSome? f) (ys.findSome? g) := by
  induction h with
  | nil => exact .none
  | @cons a b xs ys hFirst _ ih =>
    have hHead := hFound a b hFirst
    rw [List.findSome?_cons, List.findSome?_cons]
    cases ha : f a <;> cases hb : g b <;> rw [ha, hb] at hHead
    · exact ih
    · cases hHead
    · cases hHead
    · exact hHead

/-- Two lists sorted by orders that agree are sorted as one list of pairs. -/
theorem insertionSort_zip {le : α → α → Prop} {le' : β → β → Prop} [DecidableRel le]
    [DecidableRel le'] (hLe : ∀ a a' b b', Q a a' → Q b b' → (le a b ↔ le' a' b'))
    (h : List.Forall₂ Q xs ys) :
    xs.insertionSort le = ((xs.zip ys).insertionSort fun p q => le p.1 q.1).map Prod.fst ∧
      ys.insertionSort le' = ((xs.zip ys).insertionSort fun p q => le p.1 q.1).map Prod.snd := by
  obtain ⟨hLength, hPairs⟩ := List.forall₂_iff_zip.mp h
  constructor
  · rw [List.map_insertionSort (fun p q => le p.1 q.1) le Prod.fst _ fun p _ q _ => Iff.rfl,
      List.map_fst_zip (Nat.le_of_eq hLength)]
  · rw [List.map_insertionSort (fun p q => le p.1 q.1) le' Prod.snd _
      fun p hp q hq => hLe p.1 p.2 q.1 q.2 (hPairs hp) (hPairs hq),
      List.map_snd_zip (Nat.le_of_eq hLength.symm)]

/-- Where the parts have equal lengths, two concatenations are equal only part by part. -/
theorem flatMap_eq_iff_of_length {f g : α → List γ}
    (hLength : ∀ a ∈ xs, (f a).length = (g a).length) :
    xs.flatMap f = xs.flatMap g ↔ ∀ a ∈ xs, f a = g a := by
  induction xs with
  | nil => simp
  | cons a xs ih =>
    rw [List.flatMap_cons, List.flatMap_cons, List.forall_mem_cons,
      ← ih fun b hb => hLength b (List.mem_cons_of_mem _ hb)]
    constructor
    · intro hEq
      exact List.append_inj hEq (hLength a List.mem_cons_self)
    · rintro ⟨hHead, hTail⟩
      rw [hHead, hTail]

end Lists

/-! ## Maps with the same keys -/

section Maps

variable {K V : Type} {cmp : K → K → Ordering} [TransCmp cmp] [LawfulEqCmp cmp] {R : V → V → Prop}

omit [TransCmp cmp] [LawfulEqCmp cmp] in
/-- Lists with the same keys in the same order, whose values under each key are related. -/
theorem forall₂_of_keys {xs ys : List (K × V)}
    (hKeys : xs.map Prod.fst = ys.map Prod.fst)
    (hValues : ∀ k v v', (k, v) ∈ xs → (k, v') ∈ ys → R v v') :
    List.Forall₂ (fun e e' => e.1 = e'.1 ∧ R e.2 e'.2) xs ys := by
  induction xs generalizing ys with
  | nil =>
    obtain rfl : ys = [] := by simpa using hKeys.symm
    exact .nil
  | cons e xs ih =>
    cases ys with
    | nil => simp at hKeys
    | cons e' ys =>
      obtain ⟨hKey, hRest⟩ := List.cons.inj hKeys
      obtain ⟨k, v⟩ := e
      obtain ⟨k', v'⟩ := e'
      obtain rfl : k = k' := hKey
      refine .cons ⟨rfl, hValues k v v' List.mem_cons_self List.mem_cons_self⟩ ?_
      exact ih hRest fun k v v' h h' =>
        hValues k v v' (List.mem_cons_of_mem _ h) (List.mem_cons_of_mem _ h')

variable {m m' : ExtTreeMap K V cmp}

theorem keys_toList_eq (h : ∀ k : K, Option.Rel R m[k]? m'[k]?) :
    m.toList.map Prod.fst = m'.toList.map Prod.fst := by
  rw [ExtTreeMap.map_fst_toList_eq_keys, ExtTreeMap.map_fst_toList_eq_keys]
  have hMem : ∀ k, k ∈ m.keys ↔ k ∈ m'.keys := by
    intro k
    rw [ExtTreeMap.mem_keys, ExtTreeMap.mem_keys, ExtTreeMap.mem_iff_isSome_getElem?,
      ExtTreeMap.mem_iff_isSome_getElem?]
    rw [isSome_eq_of_rel (h k)]
  have hPerm : m.keys.Perm m'.keys :=
    (List.perm_ext_iff_of_nodup ExtTreeMap.nodup_keys ExtTreeMap.nodup_keys).mpr hMem
  refine hPerm.eq_of_pairwise ?_ ExtTreeMap.ordered_keys ExtTreeMap.ordered_keys
  intro a b _ _ hLt hGt
  exact absurd (hLt.symm.trans (OrientedCmp.gt_of_lt hGt)) (by decide)

/-- The values of both maps under one key are related, in whatever lists they are found. -/
theorem rel_of_mem_toList (h : ∀ k : K, Option.Rel R m[k]? m'[k]?) {k : K} {v v' : V}
    (hMem : (k, v) ∈ m.toList) (hMem' : (k, v') ∈ m'.toList) : R v v' := by
  have hk := h k
  rw [ExtTreeMap.mem_toList_iff_getElem?_eq_some.mp hMem,
    ExtTreeMap.mem_toList_iff_getElem?_eq_some.mp hMem'] at hk
  cases hk with
  | some hRel => exact hRel

theorem forall₂_toList (h : ∀ k : K, Option.Rel R m[k]? m'[k]?) :
    List.Forall₂ (fun e e' => e.1 = e'.1 ∧ R e.2 e'.2) m.toList m'.toList :=
  forall₂_of_keys (keys_toList_eq h) fun _ _ _ => rel_of_mem_toList h

theorem mem_zip_values_iff (h : ∀ k : K, Option.Rel R m[k]? m'[k]?) {v v' : V} :
    (v, v') ∈ (m.toList.map Prod.snd).zip (m'.toList.map Prod.snd) ↔
      ∃ k : K, m[k]? = some v ∧ m'[k]? = some v' := by
  obtain ⟨hLength, hPairs⟩ := List.forall₂_iff_zip.mp (forall₂_toList h)
  rw [List.zip_map]
  constructor
  · intro hMem
    obtain ⟨⟨e, e'⟩, hZip, hEq⟩ := List.mem_map.mp hMem
    obtain ⟨rfl, rfl⟩ := Prod.mk.inj hEq
    refine ⟨e.1, ?_, ?_⟩
    · exact ExtTreeMap.mem_toList_iff_getElem?_eq_some.mp (List.of_mem_zip hZip).1
    · rw [(hPairs hZip).1]
      exact ExtTreeMap.mem_toList_iff_getElem?_eq_some.mp (List.of_mem_zip hZip).2
  · rintro ⟨k, hGet, hGet'⟩
    have hMem : (k, v) ∈ (m.toList.zip m'.toList).map Prod.fst := by
      rw [List.map_fst_zip (Nat.le_of_eq hLength)]
      exact ExtTreeMap.mem_toList_iff_getElem?_eq_some.mpr hGet
    obtain ⟨⟨e, e'⟩, hZip, hFst⟩ := List.mem_map.mp hMem
    obtain rfl : e = (k, v) := hFst
    have hFound := ExtTreeMap.mem_toList_iff_getElem?_eq_some.mp (List.of_mem_zip hZip).2
    rw [← (hPairs hZip).1, hGet'] at hFound
    obtain rfl : v' = e'.2 := Option.some.inj hFound
    exact List.mem_map.mpr ⟨_, hZip, rfl⟩

end Maps

end Bdns.Lib
