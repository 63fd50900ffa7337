import Bdns.Index.Avl

/-!
# The index tree is a balanced finite map

Removal in `avl.go`, and what any series of additions, removals and writes to the metadata of a
found node does to the shape of the tree. The in-order list carries the contents
(`AVLNode.inOrder_remove`). For the shape, `rebalanceTree` repairs a node whose subtrees are
balanced and differ by at most two, and the result is as deep as the deeper subtree or one deeper
(`AVLNode.balanced_rebalanceTree`). An addition deepens a tree by at most one and a removal lowers
it by at most one, so `rebalanceTree` never meets a difference above two.
-/

namespace Bdns.Index

open Lib Blockchain Std

namespace AVLNode

/-- `findSmallest`; on nil the source would dereference nil, which `remove` never asks for. -/
def findSmallest : AVLNode → AVLNode
  | nil => nil
  | node k v m h left right =>
    match left with
    | nil => node k v m h left right
    | node _ _ _ _ _ _ => left.findSmallest

/-- `remove`: a node with two children takes over the smallest node of its right subtree. -/
def remove (key : Bytes) : AVLNode → AVLNode
  | nil => nil
  | node k v m h left right =>
    match compare key k with
    | .lt => rebalanceTree (node k v m h (left.remove key) right)
    | .gt => rebalanceTree (node k v m h left (right.remove key))
    | .eq =>
      match left, right with
      | nil, nil => nil
      | node _ _ _ _ _ _, nil => rebalanceTree left
      | nil, node _ _ _ _ _ _ => rebalanceTree right
      | node _ _ _ _ _ _, node _ _ _ _ _ _ =>
        match right.findSmallest with
        | nil => nil
        | node k' v' m' _ _ _ => rebalanceTree (node k' v' m' h left (right.remove k'))

/-! ## Contents -/

theorem findSmallest_eq {n : AVLNode} (hNode : n ≠ nil) :
    ∃ k v m h right rest, n.findSmallest = node k v m h nil right ∧
      n.inOrder = (k, (v, m)) :: rest := by
  induction n with
  | nil => exact absurd rfl hNode
  | node k v m h left right ihLeft ihRight =>
    cases left with
    | nil => exact ⟨k, v, m, h, right, right.inOrder, rfl, rfl⟩
    | node k' v' m' h' left' right' =>
      obtain ⟨k₀, v₀, m₀, h₀, right₀, rest, hSmallest, hOrder⟩ := ihLeft (by simp)
      refine ⟨k₀, v₀, m₀, h₀, right₀, rest ++ (k, (v, m)) :: right.inOrder, hSmallest, ?_⟩
      rw [inOrder, hOrder]
      rfl

theorem inOrder_remove {n : AVLNode} (key : Bytes) (hOrdered : Ascending compare n.inOrder) :
    (n.remove key).inOrder = eraseKey compare key n.inOrder := by
  induction n generalizing key with
  | nil => rfl
  | node k v m h left right ihLeft ihRight =>
    obtain ⟨hLeft, hRight, hBelow, hAbove, -⟩ := ascending_append_cons.mp hOrdered
    unfold remove
    rw [inOrder]
    cases hCmp : compare key k with
    | lt =>
      rw [inOrder_rebalanceTree, inOrder, ihLeft key hLeft]
      exact (eraseKey_append_cons_lt hAbove hCmp).symm
    | gt =>
      rw [inOrder_rebalanceTree, inOrder, ihRight key hRight]
      exact (eraseKey_append_cons_gt hBelow hCmp).symm
    | eq =>
      rw [eraseKey_append_cons_eq hBelow hAbove hCmp]
      cases left with
      | nil =>
        cases right with
        | nil => rfl
        | node => exact inOrder_rebalanceTree _
      | node =>
        cases right with
        | nil => exact (inOrder_rebalanceTree _).trans (List.append_nil _).symm
        | node k₁ v₁ m₁ h₁ left₁ right₁ =>
          obtain ⟨k', v', m', h', right', rest, hSmallest, hOrder⟩ :=
            findSmallest_eq (n := node k₁ v₁ m₁ h₁ left₁ right₁) (by simp)
          have hRest : eraseKey compare k' (node k₁ v₁ m₁ h₁ left₁ right₁).inOrder = rest := by
            rw [hOrder] at hRight ⊢
            exact eraseKey_append_cons_eq (l := []) (by simp)
              (List.pairwise_cons.mp hRight).1 ReflCmp.compare_self
          dsimp only
          rw [hSmallest]
          dsimp only
          rw [inOrder_rebalanceTree, inOrder, ihRight k' hRight, hRest, hOrder]

/-! ## Shape -/

def depth : AVLNode → Nat
  | nil => 0
  | node _ _ _ _ left right => 1 + max left.depth right.depth

/-- Every stored height is the depth of its node, and the subtrees of every node differ in depth by
at most one. -/
def Balanced : AVLNode → Prop
  | nil => True
  | node _ _ _ h left right =>
    h = 1 + max left.depth right.depth ∧ left.depth ≤ right.depth + 1 ∧
      right.depth ≤ left.depth + 1 ∧ left.Balanced ∧ right.Balanced

/-- Left of every node are smaller keys only, right of it larger ones only. -/
def IsSearchTree : AVLNode → Prop
  | nil => True
  | node k _ _ _ left right =>
    (∀ e ∈ left.inOrder, compare e.1 k = .lt) ∧ (∀ e ∈ right.inOrder, compare k e.1 = .lt) ∧
      left.IsSearchTree ∧ right.IsSearchTree

theorem isSearchTree_of_ascending {n : AVLNode} (hOrdered : Ascending compare n.inOrder) :
    n.IsSearchTree := by
  induction n with
  | nil => trivial
  | node k v m h left right ihLeft ihRight =>
    obtain ⟨hLeft, hRight, hBelow, hAbove, -⟩ := ascending_append_cons.mp hOrdered
    exact ⟨hBelow, hAbove, ihLeft hLeft, ihRight hRight⟩

theorem Balanced.getHeight_eq {n : AVLNode} (hBalanced : n.Balanced) : n.getHeight = n.depth := by
  cases n with
  | nil => rfl
  | node k v m h left right => exact hBalanced.1

@[simp] theorem depth_recalculateHeight (n : AVLNode) : n.recalculateHeight.depth = n.depth := by
  cases n <;> rfl

theorem balanced_recalculateHeight {k : Bytes} {v : Transaction} {m : DomainMetadata} {h : Nat}
    {left right : AVLNode} (hLeft : left.Balanced) (hRight : right.Balanced)
    (hLow : left.depth ≤ right.depth + 1) (hHigh : right.depth ≤ left.depth + 1) :
    (recalculateHeight (node k v m h left right)).Balanced := by
  refine ⟨?_, hLow, hHigh, hLeft, hRight⟩
  rw [hLeft.getHeight_eq, hRight.getHeight_eq]

section Rotations

variable {k k' : Bytes} {v v' : Transaction} {m m' : DomainMetadata} {h h' : Nat}

/-- A left rotation balances a node whose three subtrees fit. -/
theorem balanced_rotateLeft {a b c : AVLNode} (ha : a.Balanced) (hb : b.Balanced)
    (hc : c.Balanced) (hab : a.depth ≤ b.depth + 1) (hba : b.depth ≤ a.depth + 1)
    (hLow : max a.depth b.depth ≤ c.depth) (hHigh : c.depth ≤ max a.depth b.depth + 2) :
    (rotateLeft (node k v m h a (node k' v' m' h' b c))).Balanced := by
  rw [rotateLeft]
  apply balanced_recalculateHeight (balanced_recalculateHeight ha hb hab hba) hc
  · rw [depth_recalculateHeight, depth]
    omega
  · rw [depth_recalculateHeight, depth]
    omega

theorem depth_rotateLeft (a b c : AVLNode) :
    (rotateLeft (node k v m h a (node k' v' m' h' b c))).depth =
      1 + max (1 + max a.depth b.depth) c.depth := by
  simp [rotateLeft, depth]

theorem balanced_rotateRight {a b c : AVLNode} (ha : a.Balanced) (hb : b.Balanced)
    (hc : c.Balanced) (hbc : b.depth ≤ c.depth + 1) (hcb : c.depth ≤ b.depth + 1)
    (hLow : max b.depth c.depth ≤ a.depth) (hHigh : a.depth ≤ max b.depth c.depth + 2) :
    (rotateRight (node k v m h (node k' v' m' h' a b) c)).Balanced := by
  rw [rotateRight]
  apply balanced_recalculateHeight ha (balanced_recalculateHeight hb hc hbc hcb)
  · rw [depth_recalculateHeight, depth]
    omega
  · rw [depth_recalculateHeight, depth]
    omega

theorem depth_rotateRight (a b c : AVLNode) :
    (rotateRight (node k v m h (node k' v' m' h' a b) c)).depth =
      1 + max a.depth (1 + max b.depth c.depth) := by
  simp [rotateRight, depth]

end Rotations

/-- The outcome of `rebalanceTree` on subtrees of two depths. -/
structure Rebalanced (n : AVLNode) (low high : Nat) : Prop where
  balanced : n.Balanced
  le : n.depth ≤ 1 + max low high
  ge : max low high ≤ n.depth
  /-- Without a rotation the depth is the expected one. -/
  unrotated : low ≤ high + 1 → high ≤ low + 1 → n.depth = 1 + max low high

theorem rebalanced_right {k : Bytes} {v : Transaction} {m : DomainMetadata} {h : Nat}
    {left right : AVLNode} (hLeft : left.Balanced) (hRight : right.Balanced)
    (hHeavy : left.depth + 2 = right.depth) :
    Rebalanced (rotateLeft (node k v m h left
      (if right.leftChild.getHeight > right.rightChild.getHeight then right.rotateRight
        else right))) left.depth right.depth := by
  cases right with
  | nil => exact absurd hHeavy (by simp [depth])
  | node k' v' m' h' b c =>
    obtain ⟨-, hbc, hcb, hb, hc⟩ := hRight
    simp only [depth] at hHeavy ⊢
    simp only [leftChild, rightChild, hb.getHeight_eq, hc.getHeight_eq]
    split
    · rename_i hTurn
      cases b with
      | nil => exact absurd hTurn (by simp [depth])
      | node k₂ v₂ m₂ h₂ d e =>
        obtain ⟨-, hde, hed, hd, he⟩ := hb
        simp only [depth] at hbc hcb hTurn hHeavy ⊢
        have hInner := @balanced_recalculateHeight k' v' m' h' e c he hc (by omega) (by omega)
        have hDepth : (recalculateHeight (node k' v' m' h' e c)).depth =
            1 + max e.depth c.depth := by rw [depth_recalculateHeight, depth]
        rw [rotateRight, recalculateHeight]
        constructor
        · apply balanced_rotateLeft hLeft hd hInner <;> omega
        · rw [depth_rotateLeft]
          omega
        · rw [depth_rotateLeft]
          omega
        · omega
    · constructor
      · apply balanced_rotateLeft hLeft hb hc <;> omega
      · rw [depth_rotateLeft]
        omega
      · rw [depth_rotateLeft]
        omega
      · omega

theorem rebalanced_left {k : Bytes} {v : Transaction} {m : DomainMetadata} {h : Nat}
    {left right : AVLNode} (hLeft : left.Balanced) (hRight : right.Balanced)
    (hHeavy : left.depth = right.depth + 2) :
    Rebalanced (rotateRight (node k v m h
      (if left.rightChild.getHeight > left.leftChild.getHeight then left.rotateLeft else left)
      right)) left.depth right.depth := by
  cases left with
  | nil => exact absurd hHeavy (by simp [depth])
  | node k' v' m' h' a b =>
    obtain ⟨-, hab, hba, ha, hb⟩ := hLeft
    simp only [depth] at hHeavy ⊢
    simp only [leftChild, rightChild, ha.getHeight_eq, hb.getHeight_eq]
    split
    · rename_i hTurn
      cases b with
      | nil => exact absurd hTurn (by simp [depth])
      | node k₂ v₂ m₂ h₂ d e =>
        obtain ⟨-, hde, hed, hd, he⟩ := hb
        simp only [depth] at hab hba hTurn hHeavy ⊢
        have hInner := @balanced_recalculateHeight k' v' m' h' a d ha hd (by omega) (by omega)
        have hDepth : (recalculateHeight (node k' v' m' h' a d)).depth =
            1 + max a.depth d.depth := by rw [depth_recalculateHeight, depth]
        rw [rotateLeft, recalculateHeight]
        constructor
        · apply balanced_rotateRight hInner he hRight <;> omega
        · rw [depth_rotateRight]
          omega
        · rw [depth_rotateRight]
          omega
        · omega
    · constructor
      · apply balanced_rotateRight ha hb hRight <;> omega
      · rw [depth_rotateRight]
        omega
      · rw [depth_rotateRight]
        omega
      · omega

theorem balanced_rebalanceTree {k : Bytes} {v : Transaction} {m : DomainMetadata} {h : Nat}
    {left right : AVLNode} (hLeft : left.Balanced) (hRight : right.Balanced)
    (hLow : left.depth ≤ right.depth + 2) (hHigh : right.depth ≤ left.depth + 2) :
    Rebalanced (rebalanceTree (node k v m h left right)) left.depth right.depth := by
  rw [rebalanceTree, hLeft.getHeight_eq, hRight.getHeight_eq]
  dsimp only
  split
  · rename_i hHeavy
    exact rebalanced_right hLeft hRight hHeavy
  · split
    · rename_i hHeavy
      exact rebalanced_left hLeft hRight hHeavy
    · refine ⟨⟨rfl, by omega, by omega, hLeft, hRight⟩, le_rfl, ?_, fun _ _ => rfl⟩
      rw [depth]
      omega

/-- A balanced tree is left alone. -/
theorem Balanced.rebalanceTree_eq {n : AVLNode} (hBalanced : n.Balanced) : n.rebalanceTree = n := by
  cases n with
  | nil => rfl
  | node k v m h left right =>
    obtain ⟨rfl, hLow, hHigh, hLeft, hRight⟩ := hBalanced
    rw [rebalanceTree, hLeft.getHeight_eq, hRight.getHeight_eq, if_neg (by omega),
      if_neg (by omega)]

/-- An addition keeps the balance and deepens the tree by at most one. -/
theorem balanced_add {n : AVLNode} (key : Bytes) (value : Transaction) (hBalanced : n.Balanced) :
    (n.add key value).Balanced ∧ n.depth ≤ (n.add key value).depth ∧
      (n.add key value).depth ≤ n.depth + 1 := by
  induction n with
  | nil => simp [add, Balanced, depth]
  | node k v m h left right ihLeft ihRight =>
    obtain ⟨-, hLow, hHigh, hLeft, hRight⟩ := hBalanced
    rw [add, depth]
    cases compare key k with
    | lt =>
      obtain ⟨hNew, hGrown, hOne⟩ := ihLeft hLeft
      obtain ⟨hShape, hLe, hGe, hSame⟩ :=
        @balanced_rebalanceTree k v m h _ _ hNew hRight (by omega) (by omega)
      exact ⟨hShape, by dsimp only; omega, by dsimp only; omega⟩
    | gt =>
      obtain ⟨hNew, hGrown, hOne⟩ := ihRight hRight
      obtain ⟨hShape, hLe, hGe, hSame⟩ :=
        @balanced_rebalanceTree k v m h _ _ hLeft hNew (by omega) (by omega)
      exact ⟨hShape, by dsimp only; omega, by dsimp only; omega⟩
    | eq =>
      obtain ⟨hShape, -, -, hSame⟩ :=
        @balanced_rebalanceTree k value m h _ _ hLeft hRight (by omega) (by omega)
      exact ⟨hShape, by dsimp only; omega, by dsimp only; omega⟩

/-- A node one of whose subtrees has lost at most one level. -/
theorem balanced_of_lowered_right {k : Bytes} {v : Transaction} {m : DomainMetadata} {h : Nat}
    {left right right' : AVLNode} (hLeft : left.Balanced) (hNew : right'.Balanced)
    (hLow : left.depth ≤ right.depth + 1) (hHigh : right.depth ≤ left.depth + 1)
    (hLost : right'.depth ≤ right.depth) (hOne : right.depth ≤ right'.depth + 1) :
    (rebalanceTree (node k v m h left right')).Balanced ∧
      (rebalanceTree (node k v m h left right')).depth ≤ 1 + max left.depth right.depth ∧
      1 + max left.depth right.depth ≤
        (rebalanceTree (node k v m h left right')).depth + 1 := by
  obtain ⟨hShape, hLe, hGe, hSame⟩ :=
    @balanced_rebalanceTree k v m h _ _ hLeft hNew (by omega) (by omega)
  refine ⟨hShape, ?_, ?_⟩ <;> omega

/-- A removal keeps the balance and lowers the tree by at most one. -/
theorem balanced_remove {n : AVLNode} (key : Bytes) (hBalanced : n.Balanced) :
    (n.remove key).Balanced ∧ (n.remove key).depth ≤ n.depth ∧
      n.depth ≤ (n.remove key).depth + 1 := by
  induction n generalizing key with
  | nil => exact ⟨trivial, le_rfl, by simp [depth]⟩
  | node k v m h left right ihLeft ihRight =>
    obtain ⟨-, hLow, hHigh, hLeft, hRight⟩ := hBalanced
    unfold remove
    rw [depth]
    cases compare key k with
    | lt =>
      obtain ⟨hNew, hLost, hOne⟩ := ihLeft key hLeft
      obtain ⟨hShape, hLe, hGe, hSame⟩ :=
        @balanced_rebalanceTree k v m h _ _ hNew hRight (by omega) (by omega)
      exact ⟨hShape, by dsimp only; omega, by dsimp only; omega⟩
    | gt =>
      obtain ⟨hNew, hLost, hOne⟩ := ihRight key hRight
      exact balanced_of_lowered_right hLeft hNew hLow hHigh hLost hOne
    | eq =>
      cases left with
      | nil =>
        cases right with
        | nil => exact ⟨trivial, by simp [depth], by simp [depth]⟩
        | node =>
          dsimp only
          rw [hRight.rebalanceTree_eq]
          refine ⟨hRight, ?_, ?_⟩ <;> simp only [depth] <;> omega
      | node =>
        cases right with
        | nil =>
          dsimp only
          rw [hLeft.rebalanceTree_eq]
          refine ⟨hLeft, ?_, ?_⟩ <;> simp only [depth] <;> omega
        | node k₁ v₁ m₁ h₁ left₁ right₁ =>
          obtain ⟨k', v', m', h', right', rest, hSmallest, -⟩ :=
            findSmallest_eq (n := node k₁ v₁ m₁ h₁ left₁ right₁) (by simp)
          obtain ⟨hNew, hLost, hOne⟩ := ihRight k' hRight
          dsimp only
          rw [hSmallest]
          exact balanced_of_lowered_right hLeft hNew hLow hHigh hLost hOne

theorem depth_setMetadata (n : AVLNode) (key : Bytes) (f : DomainMetadata → DomainMetadata) :
    (n.setMetadata key f).depth = n.depth := by
  induction n with
  | nil => rfl
  | node k v m h left right ihLeft ihRight =>
    unfold setMetadata
    cases compare key k <;> simp [depth, ihLeft, ihRight]

theorem balanced_setMetadata {n : AVLNode} (key : Bytes) (f : DomainMetadata → DomainMetadata)
    (hBalanced : n.Balanced) : (n.setMetadata key f).Balanced := by
  induction n with
  | nil => trivial
  | node k v m h left right ihLeft ihRight =>
    obtain ⟨hHeight, hLow, hHigh, hLeft, hRight⟩ := hBalanced
    unfold setMetadata
    cases compare key k with
    | lt =>
      refine ⟨?_, ?_, ?_, ihLeft hLeft, hRight⟩ <;> rwa [depth_setMetadata]
    | gt =>
      refine ⟨?_, ?_, ?_, hLeft, ihRight hRight⟩ <;> rwa [depth_setMetadata]
    | eq => exact ⟨hHeight, hLow, hHigh, hLeft, hRight⟩

end AVLNode

/-! ## Series of operations -/

namespace AVLTree

def remove (t : AVLTree) (key : Bytes) : AVLTree where
  root := t.root.remove key
  ordered := by
    rw [AVLNode.inOrder_remove key t.ordered]
    exact ascending_eraseKey t.ordered

theorem search_remove (t : AVLTree) (key key' : Bytes) :
    (t.remove key).search key' = if key = key' then none else t.search key' := by
  unfold search
  rw [AVLNode.search_eq_assocLookup key' (t.remove key).ordered,
    AVLNode.search_eq_assocLookup key' t.ordered, remove,
    AVLNode.inOrder_remove key t.ordered, assocLookup_eraseKey]
  by_cases hKey : key = key'
  · rw [if_pos hKey, if_pos (by rw [hKey]; exact ReflCmp.compare_self)]
  · rw [if_neg hKey, if_neg]
    exact fun hCmp => hKey (LawfulEqCmp.eq_of_compare hCmp).symm

/-- A call on the tree, or a write to the metadata of the node that `Search` returned. -/
inductive Op where
  | add (key : Bytes) (value : Transaction)
  | remove (key : Bytes)
  | setMetadata (key : Bytes) (f : DomainMetadata → DomainMetadata)

def perform (t : AVLTree) : Op → AVLTree
  | .add key value => t.add key value
  | .remove key => t.remove key
  | .setMetadata key f => t.setMetadata key f

/-- The tree after a series of operations on the empty one. -/
def run (ops : List Op) : AVLTree := ops.foldl perform {}

theorem run_append (ops : List Op) (op : Op) : run (ops ++ [op]) = (run ops).perform op :=
  List.foldl_concat _ _ _ _

/-- The value of the last addition under a key, if no removal of the key came after it. -/
def lastAdded (key : Bytes) (ops : List Op) : Option Transaction :=
  ops.foldl (fun last op =>
    match op with
    | .add key' value => if key' = key then some value else last
    | .remove key' => if key' = key then none else last
    | .setMetadata _ _ => last) none

theorem balanced_perform {t : AVLTree} (op : Op) (hBalanced : t.root.Balanced) :
    (t.perform op).root.Balanced := by
  cases op with
  | add key value => exact (AVLNode.balanced_add key value hBalanced).1
  | remove key => exact (AVLNode.balanced_remove key hBalanced).1
  | setMetadata key f => exact AVLNode.balanced_setMetadata key f hBalanced

theorem balanced_run (ops : List Op) : (run ops).root.Balanced := by
  induction ops using List.reverseRecOn with
  | nil => trivial
  | append_singleton ops op ih =>
    rw [run_append]
    exact balanced_perform op ih

theorem search_run (key : Bytes) (ops : List Op) :
    ((run ops).search key).map Prod.fst = lastAdded key ops := by
  induction ops using List.reverseRecOn with
  | nil => rfl
  | append_singleton ops op ih =>
    rw [run_append, lastAdded, List.foldl_concat, ← lastAdded, ← ih]
    cases op with
    | add key' value =>
      dsimp only [perform]
      rw [search_add]
      split <;> rfl
    | remove key' =>
      dsimp only [perform]
      rw [search_remove]
      split <;> rfl
    | setMetadata key' f =>
      dsimp only [perform]
      rw [search_setMetadata, Option.map_map]
      congr 1
      funext node
      dsimp only [Function.comp]
      split <;> rfl

/-- After any series of operations on an empty tree, keys are in strict search order, stored heights
are exact and subtrees differ by at most one; a search finds the last added value of a present key
and nothing else; an addition under a present key keeps the metadata; a removal keeps what stands
under every other key. -/
theorem run_balanced_map (ops : List Op) :
    (run ops).root.IsSearchTree ∧ (run ops).root.Balanced ∧
      (∀ key, ((run ops).search key).map Prod.fst = lastAdded key ops) ∧
      (∀ key value node, (run ops).search key = some node →
        (run (ops ++ [.add key value])).search key = some (value, node.2)) ∧
      ∀ key key', key' ≠ key → (run (ops ++ [.remove key])).search key' = (run ops).search key' := by
  refine ⟨AVLNode.isSearchTree_of_ascending (run ops).ordered, balanced_run ops,
    fun key => search_run key ops, ?_, ?_⟩
  · intro key value node hNode
    rw [run_append, perform, search_add, if_pos rfl, hNode]
    rfl
  · intro key key' hKey
    rw [run_append, perform, search_remove, if_neg hKey.symm]

end AVLTree

end Bdns.Index
