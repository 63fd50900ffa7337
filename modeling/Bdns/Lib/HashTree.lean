import Bdns.Lib.Bytes

/-!
# Binary hash trees built level by level

A level is a list; a round joins its neighbours. The first half is about the rounds over an
arbitrary type: which elements survive them, and that nothing is lost when every level is
even. The second half is about trees of digests: equal roots of two trees, or of a tree and
a walk along an opening path, give equal trees as long as the digest function does not
collide on the strings that were actually hashed.
-/

namespace Bdns.Lib

/-! ## Levels -/

section Levels

variable {α β : Type*}

/-- Joins neighbours; a last element without a neighbour is dropped. -/
def pairUp (join : α → α → α) : List α → List α
  | [] => []
  | [_] => []
  | a :: b :: rest => join a b :: pairUp join rest

/-- Repeats the last element of a level of odd length. -/
def padOdd (xs : List α) : List α :=
  if xs.length % 2 = 0 then xs else xs ++ xs.getLast?.toList

/-- Rounds of `step` until at most one element is left. -/
def levels (step : List α → List α) : Nat → List α → List α
  | 0, xs => xs
  | fuel + 1, xs => if xs.length ≤ 1 then xs else levels step fuel (step xs)

theorem length_pairUp (join : α → α → α) (xs : List α) :
    (pairUp join xs).length = xs.length / 2 := by
  fun_induction pairUp join xs with
  | case1 => simp
  | case2 a => simp
  | case3 a b rest ih =>
    simp only [List.length_cons, ih]
    omega

theorem length_padOdd (xs : List α) : (padOdd xs).length = xs.length + xs.length % 2 := by
  unfold padOdd
  split
  · omega
  · rename_i hOdd
    have hNe : xs ≠ [] := by
      rintro rfl
      simp at hOdd
    rw [List.getLast?_eq_some_getLast hNe]
    simp only [Option.toList_some, List.length_append, List.length_cons, List.length_nil]
    omega

theorem getElem?_padOdd {xs : List α} {i : Nat} (hi : i < xs.length) : (padOdd xs)[i]? = xs[i]? := by
  unfold padOdd
  split
  · rfl
  · exact List.getElem?_append_left hi

theorem padOdd_of_even {xs : List α} (hEven : xs.length % 2 = 0) : padOdd xs = xs := if_pos hEven

theorem padOdd_injective {xs ys : List α} (hLen : xs.length = ys.length)
    (h : padOdd xs = padOdd ys) : xs = ys := by
  unfold padOdd at h
  rw [hLen] at h
  split at h
  · exact h
  · exact (List.append_inj h hLen).1

theorem mem_of_mem_padOdd {xs : List α} {x : α} (hx : x ∈ padOdd xs) : x ∈ xs := by
  unfold padOdd at hx
  split at hx
  · exact hx
  · rcases List.mem_append.mp hx with hx | hx
    · exact hx
    · exact List.mem_of_getLast? (by simpa using hx)

theorem map_padOdd (f : α → β) (xs : List α) : (padOdd xs).map f = padOdd (xs.map f) := by
  unfold padOdd
  rw [List.length_map]
  split
  · rfl
  · rw [List.map_append, List.getLast?_map]
    cases xs.getLast? <;> rfl

theorem map_pairUp {join : α → α → α} {join' : β → β → β} {f : α → β}
    (hJoin : ∀ a b, f (join a b) = join' (f a) (f b)) (xs : List α) :
    (pairUp join xs).map f = pairUp join' (xs.map f) := by
  fun_induction pairUp join xs with
  | case1 => rfl
  | case2 a => rfl
  | case3 a b rest ih => simp [pairUp, hJoin, ih]

/-- Rounds commute with a map that commutes with one round. -/
theorem map_levels {step : List α → List α} {step' : List β → List β} {f : α → β}
    (hStep : ∀ xs, (step xs).map f = step' (xs.map f)) (fuel : Nat) (xs : List α) :
    (levels step fuel xs).map f = levels step' fuel (xs.map f) := by
  induction fuel generalizing xs with
  | zero => rfl
  | succ fuel ih =>
    unfold levels
    rw [List.length_map]
    split
    · rfl
    · rw [ih, hStep]

/-- More rounds than elements make no difference. -/
theorem levels_fuel {step : List α → List α}
    (hStep : ∀ xs, 1 < xs.length → (step xs).length < xs.length) {fuel fuel' : Nat} {xs : List α}
    (hFuel : xs.length ≤ fuel + 1) (hFuel' : xs.length ≤ fuel' + 1) :
    levels step fuel xs = levels step fuel' xs := by
  induction fuel generalizing fuel' xs with
  | zero =>
    cases fuel' with
    | zero => rfl
    | succ fuel' => exact (if_pos hFuel).symm
  | succ fuel ih =>
    by_cases hShort : xs.length ≤ 1
    · cases fuel' with
      | zero => exact if_pos hShort
      | succ fuel' => exact (if_pos hShort).trans (if_pos hShort).symm
    · obtain ⟨fuel', rfl⟩ : ∃ f, fuel' = f + 1 := ⟨fuel' - 1, by omega⟩
      have hLess := hStep xs (by omega)
      rw [levels, levels, if_neg hShort, if_neg hShort]
      exact ih (by omega) (by omega)

theorem pairUp_take (join : α → α → α) (xs : List α) (m : Nat) :
    pairUp join (xs.take (2 * m)) = (pairUp join xs).take m := by
  fun_induction pairUp join xs generalizing m with
  | case1 => simp [pairUp]
  | case2 a =>
    cases m with
    | zero => simp [pairUp]
    | succ m => simp [show 2 * (m + 1) = 2 * m + 1 + 1 by omega, pairUp]
  | case3 a b rest ih =>
    cases m with
    | zero => simp [pairUp]
    | succ m => simp [show 2 * (m + 1) = 2 * m + 1 + 1 by omega, pairUp, ih]

theorem getElem?_pairUp (join : α → α → α) (xs : List α) (j : Nat) :
    (pairUp join xs)[j]? = (xs[2 * j]?).bind fun a => (xs[2 * j + 1]?).map fun b => join a b := by
  fun_induction pairUp join xs generalizing j with
  | case1 => simp
  | case2 a => cases j <;> simp
  | case3 a b rest ih =>
    cases j with
    | zero => simp
    | succ j => simp [show 2 * (j + 1) = 2 * j + 1 + 1 by omega, ih]

theorem pairUp_injective {join : α → α → α}
    (hJoin : ∀ a b c d, join a b = join c d → a = c ∧ b = d) {xs ys : List α}
    (hLen : xs.length = ys.length) (hEven : xs.length % 2 = 0)
    (h : pairUp join xs = pairUp join ys) : xs = ys := by
  fun_induction pairUp join xs generalizing ys with
  | case1 => exact (List.length_eq_zero_iff.mp hLen.symm).symm
  | case2 a => simp at hEven
  | case3 a b rest ih =>
    match ys, hLen with
    | c :: d :: rest', hLen =>
      simp only [pairUp, List.cons.injEq] at h
      obtain ⟨rfl, rfl⟩ := hJoin a b c d h.1
      simp only [List.length_cons] at hLen hEven
      rw [ih (by omega) (by omega) h.2]

theorem exists_log_two {n : Nat} (hn : 0 < n) : ∃ k, 2 ^ k ≤ n ∧ n < 2 ^ (k + 1) :=
  ⟨Nat.log2 n, Nat.log2_self_le (by omega), Nat.lt_log2_self⟩

theorem exists_clog_two {n : Nat} (hn : 0 < n) : ∃ k, n ≤ 2 ^ k ∧ 2 ^ k < 2 * n := by
  obtain ⟨k, hLow, hHigh⟩ := exists_log_two hn
  by_cases hEq : n = 2 ^ k
  · exact ⟨k, by omega, by omega⟩
  · exact ⟨k + 1, by omega, by rw [pow_succ]; omega⟩

theorem le_of_two_pow_lt {k n : Nat} (h : 2 ^ k < 2 * n) : k ≤ n := by
  by_contra hLt
  have hMono : 2 ^ (n + 1) ≤ 2 ^ k := Nat.pow_le_pow_right (by omega) (by omega)
  have := n.lt_two_pow_self
  rw [pow_succ] at hMono
  omega

/-! ### Dropping rounds: only a power of two of the elements reaches the end -/

/-- One element is left, and it depends on the first `2 ^ k` elements only. -/
theorem levels_pairUp_take {join : α → α → α} {k fuel : Nat} {xs : List α} (hFuel : k ≤ fuel)
    (hLow : 2 ^ k ≤ xs.length) (hHigh : xs.length < 2 ^ (k + 1)) :
    levels (pairUp join) fuel xs = levels (pairUp join) fuel (xs.take (2 ^ k)) := by
  induction k generalizing fuel xs with
  | zero =>
    rw [List.take_of_length_le (by omega)]
  | succ k ih =>
    obtain ⟨fuel, rfl⟩ : ∃ f, fuel = f + 1 := ⟨fuel - 1, by omega⟩
    have hPow : 2 ^ (k + 1) = 2 * 2 ^ k := by rw [pow_succ, Nat.mul_comm]
    have hPow' : 2 ^ (k + 1 + 1) = 2 * 2 ^ (k + 1) := by rw [pow_succ, Nat.mul_comm]
    have hPos : 0 < 2 ^ k := Nat.two_pow_pos k
    unfold levels
    rw [List.length_take, if_neg (by omega), if_neg (by omega), hPow, pairUp_take]
    refine ih (by omega) ?_ ?_ <;> rw [length_pairUp] <;> omega

theorem length_levels_pairUp {join : α → α → α} {k fuel : Nat} {xs : List α} (hFuel : k ≤ fuel)
    (hLow : 2 ^ k ≤ xs.length) (hHigh : xs.length < 2 ^ (k + 1)) :
    (levels (pairUp join) fuel xs).length = 1 := by
  induction k generalizing fuel xs with
  | zero =>
    cases fuel with
    | zero =>
      unfold levels
      omega
    | succ fuel =>
      unfold levels
      rw [if_pos (by omega)]
      omega
  | succ k ih =>
    obtain ⟨fuel, rfl⟩ : ∃ f, fuel = f + 1 := ⟨fuel - 1, by omega⟩
    have hPow : 2 ^ (k + 1) = 2 * 2 ^ k := by rw [pow_succ, Nat.mul_comm]
    have hPow' : 2 ^ (k + 1 + 1) = 2 * 2 ^ (k + 1) := by rw [pow_succ, Nat.mul_comm]
    have hPos : 0 < 2 ^ k := Nat.two_pow_pos k
    unfold levels
    rw [if_neg (by omega)]
    refine ih (by omega) ?_ ?_ <;> rw [length_pairUp] <;> omega

/-- On a power of two of elements the rounds lose nothing. -/
theorem levels_pairUp_injective {join : α → α → α}
    (hJoin : ∀ a b c d, join a b = join c d → a = c ∧ b = d) {k fuel : Nat} {xs ys : List α}
    (hFuel : k ≤ fuel) (hx : xs.length = 2 ^ k) (hy : ys.length = 2 ^ k)
    (h : levels (pairUp join) fuel xs = levels (pairUp join) fuel ys) : xs = ys := by
  induction k generalizing fuel xs ys with
  | zero =>
    cases fuel with
    | zero => exact h
    | succ fuel =>
      unfold levels at h
      rwa [if_pos (by omega), if_pos (by omega)] at h
  | succ k ih =>
    obtain ⟨fuel, rfl⟩ : ∃ f, fuel = f + 1 := ⟨fuel - 1, by omega⟩
    have hPow : 2 ^ (k + 1) = 2 * 2 ^ k := by rw [pow_succ, Nat.mul_comm]
    have hPos : 0 < 2 ^ k := Nat.two_pow_pos k
    unfold levels at h
    rw [if_neg (by omega), if_neg (by omega)] at h
    have hNext := ih (by omega) (by rw [length_pairUp]; omega) (by rw [length_pairUp]; omega) h
    exact pairUp_injective hJoin (by omega) (by omega) hNext

/-- Padding rounds do what dropping rounds do when no level above the first is odd. -/
theorem levels_padOdd_of_two_pow {join : α → α → α} {k fuel : Nat} {xs : List α}
    (hLen : xs.length = 2 ^ k) :
    levels (pairUp join ∘ padOdd) fuel xs = levels (pairUp join) fuel xs := by
  induction k generalizing fuel xs with
  | zero => cases fuel <;> simp [levels, hLen]
  | succ k ih =>
    have hPow : 2 ^ (k + 1) = 2 * 2 ^ k := by rw [pow_succ, Nat.mul_comm]
    cases fuel with
    | zero => rfl
    | succ fuel =>
      unfold levels
      rw [Function.comp_apply, padOdd_of_even (by omega)]
      split
      · rfl
      · exact ih (by rw [length_pairUp]; omega)

/-! ### How many rounds there are -/

section Depth

variable {join : α → α → α} {depth : α → Nat} (hDepth : ∀ a b, depth (join a b) = depth a + 1)

include hDepth

theorem depth_pairUp {xs : List α} {e : Nat} (hAll : ∀ x ∈ xs, depth x = e) :
    ∀ x ∈ pairUp join xs, depth x = e + 1 := by
  fun_induction pairUp join xs with
  | case1 => simp
  | case2 a => simp
  | case3 a b rest ih =>
    intro x hx
    rcases List.mem_cons.mp hx with rfl | hx
    · rw [hDepth, hAll a (by simp)]
    · exact ih (fun y hy => hAll y (by simp [hy])) x hx

theorem depth_levels_pairUp {k fuel e : Nat} {xs : List α} (hFuel : k ≤ fuel)
    (hLow : 2 ^ k ≤ xs.length) (hHigh : xs.length < 2 ^ (k + 1)) (hAll : ∀ x ∈ xs, depth x = e) :
    ∀ x ∈ levels (pairUp join) fuel xs, depth x = e + k := by
  induction k generalizing fuel xs e with
  | zero =>
    have hStop : levels (pairUp join) fuel xs = xs := by
      cases fuel with
      | zero => rfl
      | succ fuel => exact if_pos (by omega)
    rwa [hStop]
  | succ k ih =>
    obtain ⟨fuel, rfl⟩ : ∃ f, fuel = f + 1 := ⟨fuel - 1, by omega⟩
    have hPow : 2 ^ (k + 1) = 2 * 2 ^ k := by rw [pow_succ, Nat.mul_comm]
    have hPow' : 2 ^ (k + 1 + 1) = 2 * 2 ^ (k + 1) := by rw [pow_succ, Nat.mul_comm]
    have hPos : 0 < 2 ^ k := Nat.two_pow_pos k
    unfold levels
    rw [if_neg (by omega), show e + (k + 1) = e + 1 + k by omega]
    refine ih (by omega) ?_ ?_ (depth_pairUp hDepth hAll) <;> rw [length_pairUp] <;> omega

theorem depth_levels_padOdd {k fuel e : Nat} {xs : List α} (hFuel : k ≤ fuel)
    (hHigh : xs.length ≤ 2 ^ k) (hLow : 2 ^ k < 2 * xs.length) (hAll : ∀ x ∈ xs, depth x = e) :
    ∀ x ∈ levels (pairUp join ∘ padOdd) fuel xs, depth x = e + k := by
  induction k generalizing fuel xs e with
  | zero =>
    have hStop : levels (pairUp join ∘ padOdd) fuel xs = xs := by
      cases fuel with
      | zero => rfl
      | succ fuel => exact if_pos (by omega)
    rwa [hStop]
  | succ k ih =>
    obtain ⟨fuel, rfl⟩ : ∃ f, fuel = f + 1 := ⟨fuel - 1, by omega⟩
    have hPow : 2 ^ (k + 1) = 2 * 2 ^ k := by rw [pow_succ, Nat.mul_comm]
    have hPos : 0 < 2 ^ k := Nat.two_pow_pos k
    have hPad : ∀ x ∈ padOdd xs, depth x = e := fun x hx => hAll x (mem_of_mem_padOdd hx)
    unfold levels
    rw [if_neg (by omega), show e + (k + 1) = e + 1 + k by omega]
    refine ih (by omega) ?_ ?_ (depth_pairUp hDepth hPad) <;>
      rw [Function.comp_apply, length_pairUp, length_padOdd] <;> omega

end Depth

end Levels

/-! ## Trees of digests -/

/-- What a Merkle computation hashed, with the data at the leaves. -/
inductive HashTree where
  | leaf (datum : Bytes)
  | fork (left right : HashTree)
  deriving DecidableEq

namespace HashTree

def root (H : Bytes → Bytes) : HashTree → Bytes
  | leaf datum => H datum
  | fork left right => H (left.root H ++ right.root H)

/-- Every string the computation of the root hashes. -/
def hashed (H : Bytes → Bytes) : HashTree → List Bytes
  | leaf datum => [datum]
  | fork left right => (left.root H ++ right.root H) :: (left.hashed H ++ right.hashed H)

def leaves : HashTree → List Bytes
  | leaf datum => [datum]
  | fork left right => left.leaves ++ right.leaves

/-- The number of forks on the way to the leftmost leaf. -/
def leftDepth : HashTree → Nat
  | leaf _ => 0
  | fork left _ => left.leftDepth + 1

theorem fork_injective (a b c d : HashTree) (h : fork a b = fork c d) : a = c ∧ b = d := by
  injection h with hLeft hRight
  exact ⟨hLeft, hRight⟩

/-- One step of an opening: the sibling stands on the right when the direction is `true`. -/
def stepUp (H : Bytes → Bytes) (current sibling : Bytes) (right : Bool) : Bytes :=
  H (if right then current ++ sibling else sibling ++ current)

/-- An opening path, walked from a digest to the root. -/
def walk (H : Bytes → Bytes) : Bytes → List (Bytes × Bool) → Bytes
  | current, [] => current
  | current, (sibling, right) :: path => walk H (stepUp H current sibling right) path

/-- The strings a walk hashes. -/
def walkHashed (H : Bytes → Bytes) : Bytes → List (Bytes × Bool) → List Bytes
  | _, [] => []
  | current, (sibling, right) :: path =>
    (if right then current ++ sibling else sibling ++ current) ::
      walkHashed H (stepUp H current sibling right) path

section Binding

variable {H : Bytes → Bytes} {w : Nat} (hWidth : ∀ x, (H x).length = w)

include hWidth

theorem length_root (t : HashTree) : (t.root H).length = w := by
  cases t <;> exact hWidth _

theorem length_walk {current : Bytes} (hLen : current.length = w) (path : List (Bytes × Bool)) :
    (walk H current path).length = w := by
  induction path generalizing current with
  | nil => exact hLen
  | cons e path ih => exact ih (hWidth _)

/-- Two trees with one root are one tree: leaves cannot pass for forks because no datum is as
long as two digests. -/
theorem eq_of_root_eq {t t' : HashTree} {S : Set Bytes} (hInj : Set.InjOn H S)
    (hS : ∀ x ∈ t.hashed H, x ∈ S) (hS' : ∀ x ∈ t'.hashed H, x ∈ S)
    (hSep : ∀ d ∈ t.leaves, d.length ≠ 2 * w) (hSep' : ∀ d ∈ t'.leaves, d.length ≠ 2 * w)
    (h : t.root H = t'.root H) : t = t' := by
  have hPair : ∀ l r : HashTree, (l.root H ++ r.root H).length = 2 * w := by
    intro l r
    rw [List.length_append, length_root hWidth, length_root hWidth, Nat.two_mul]
  induction t generalizing t' with
  | leaf datum =>
    cases t' with
    | leaf datum' =>
      have hEq := hInj (hS datum (by simp [hashed])) (hS' datum' (by simp [hashed])) h
      rw [hEq]
    | fork left right =>
      have hEq := hInj (hS datum (by simp [hashed])) (hS' _ (by simp [hashed])) h
      exact absurd (hEq ▸ hPair left right) (hSep datum (by simp [leaves]))
  | fork left right ihLeft ihRight =>
    cases t' with
    | leaf datum' =>
      have hEq := hInj (hS _ (by simp [hashed])) (hS' datum' (by simp [hashed])) h
      exact absurd (hEq ▸ hPair left right) (hSep' datum' (by simp [leaves]))
    | fork left' right' =>
      have hEq := hInj (hS _ (by simp [hashed])) (hS' _ (by simp [hashed])) h
      obtain ⟨hLeft, hRight⟩ := List.append_inj hEq
        ((length_root hWidth left).trans (length_root hWidth left').symm)
      simp only [hashed, leaves, List.mem_cons, List.mem_append] at hS hS' hSep hSep'
      rw [ihLeft (fun x hx => hS x (by simp [hx])) (fun x hx => hS' x (by simp [hx]))
          (fun d hd => hSep d (by simp [hd])) (fun d hd => hSep' d (by simp [hd])) hLeft,
        ihRight (fun x hx => hS x (by simp [hx])) (fun x hx => hS' x (by simp [hx]))
          (fun d hd => hSep d (by simp [hd])) (fun d hd => hSep' d (by simp [hd])) hRight]

/-- A walk that ends in a tree's root starts at the root of one of its subtrees, whoever chose
the siblings. -/
theorem exists_subtree_of_walk {t : HashTree} {S : Set Bytes} (hInj : Set.InjOn H S)
    (hS : ∀ x ∈ t.hashed H, x ∈ S) (hSep : ∀ d ∈ t.leaves, d.length ≠ 2 * w)
    {path : List (Bytes × Bool)} {current : Bytes} (hLen : current.length = w)
    (hSiblings : ∀ e ∈ path, e.1.length = w) (hPath : ∀ x ∈ walkHashed H current path, x ∈ S)
    (hWalk : walk H current path = t.root H) :
    ∃ s : HashTree, s.root H = current ∧ s.hashed H ⊆ t.hashed H ∧ s.leaves ⊆ t.leaves := by
  induction path generalizing current with
  | nil => exact ⟨t, hWalk.symm, List.Subset.refl _, List.Subset.refl _⟩
  | cons e path ih =>
    obtain ⟨sibling, right⟩ := e
    have hSibling : sibling.length = w := hSiblings (sibling, right) (by simp)
    obtain ⟨s, hRoot, hHashed, hLeaves⟩ := ih (hWidth _)
      (fun e he => hSiblings e (by simp [he])) (fun x hx => hPath x (List.mem_cons_of_mem _ hx)) hWalk
    have hInput := hPath _ (by simp only [walkHashed]; exact List.mem_cons_self)
    cases s with
    | leaf datum =>
      -- a leaf would be a datum made of two digests
      have hEq := hInj (hS datum (hHashed (by simp [hashed]))) hInput hRoot
      refine absurd ?_ (hSep datum (hLeaves (by simp [leaves])))
      rw [hEq]
      split <;> simp only [List.length_append] <;> omega
    | fork left rightTree =>
      have hEq := hInj (hS _ (hHashed (by simp [hashed]))) hInput hRoot
      simp only [hashed, leaves] at hHashed hLeaves
      cases right with
      | true =>
        refine ⟨left, (List.append_inj hEq ((length_root hWidth left).trans hLen.symm)).1, ?_, ?_⟩
        · exact fun x hx => hHashed (by simp [hx])
        · exact fun x hx => hLeaves (by simp [hx])
      | false =>
        refine ⟨rightTree,
          (List.append_inj hEq ((length_root hWidth left).trans hSibling.symm)).2, ?_, ?_⟩
        · exact fun x hx => hHashed (by simp [hx])
        · exact fun x hx => hLeaves (by simp [hx])

/-- An opening of a datum against a tree's root shows that the datum is one of its leaves. -/
theorem mem_leaves_of_walk {t : HashTree} {S : Set Bytes} (hInj : Set.InjOn H S)
    (hS : ∀ x ∈ t.hashed H, x ∈ S) (hSep : ∀ d ∈ t.leaves, d.length ≠ 2 * w)
    {path : List (Bytes × Bool)} {datum : Bytes} (hDatum : datum.length ≠ 2 * w)
    (hDatumS : datum ∈ S) (hSiblings : ∀ e ∈ path, e.1.length = w)
    (hPath : ∀ x ∈ walkHashed H (H datum) path, x ∈ S)
    (hWalk : walk H (H datum) path = t.root H) : datum ∈ t.leaves := by
  obtain ⟨s, hRoot, hHashed, hLeaves⟩ :=
    exists_subtree_of_walk hWidth hInj hS hSep (hWidth datum) hSiblings hPath hWalk
  have hEq : s = leaf datum := by
    refine eq_of_root_eq hWidth hInj (fun x hx => hS x (hHashed hx)) ?_
      (fun d hd => hSep d (hLeaves hd)) ?_ hRoot
    · simpa [hashed] using hDatumS
    · simpa [leaves] using hDatum
  exact hLeaves (by simp [hEq, leaves])

end Binding

end HashTree

end Bdns.Lib
