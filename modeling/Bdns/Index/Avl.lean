import Bdns.Blockchain.Transaction
import Bdns.Lib.SortedAssoc

/-!
# The AVL tree of the index

`avl.go`. Keys are hashed domain names; a node holds the transaction indexed for the domain
and, apart from it, the owner and the list price. Rotations do not change the in-order list,
and everything else is stated on that list.
-/

namespace Bdns.Index

open Lib Blockchain Std

/-- The market and ownership state of a domain. The owner is nil until it is set. -/
structure DomainMetadata where
  /-- Zero when the domain is not listed. -/
  listPrice : UInt64 := 0
  ownerKey : Option Bytes := none
  deriving DecidableEq

inductive AVLNode where
  | nil
  | node (key : Bytes) (value : Transaction) (metadata : DomainMetadata) (height : Nat)
      (left right : AVLNode)
  deriving DecidableEq

namespace AVLNode

def getHeight : AVLNode → Nat
  | nil => 0
  | node _ _ _ height _ _ => height

def recalculateHeight : AVLNode → AVLNode
  | nil => nil
  | node k v m _ left right => node k v m (1 + max left.getHeight right.getHeight) left right

/-- `rotateLeft`; on a node without a right child the source would dereference nil, which
`rebalanceTree` never asks for. -/
def rotateLeft : AVLNode → AVLNode
  | node k v m h left (node k' v' m' h' left' right') =>
    recalculateHeight (node k' v' m' h' (recalculateHeight (node k v m h left left')) right')
  | n => n

def rotateRight : AVLNode → AVLNode
  | node k v m h (node k' v' m' h' left' right') right =>
    recalculateHeight (node k' v' m' h' left' (recalculateHeight (node k v m h right' right)))
  | n => n

def leftChild : AVLNode → AVLNode
  | nil => nil
  | node _ _ _ _ left _ => left

def rightChild : AVLNode → AVLNode
  | nil => nil
  | node _ _ _ _ _ right => right

def rebalanceTree : AVLNode → AVLNode
  | nil => nil
  | node k v m _ left right =>
    let h := 1 + max left.getHeight right.getHeight
    if left.getHeight + 2 = right.getHeight then
      let right :=
        if right.leftChild.getHeight > right.rightChild.getHeight then right.rotateRight
        else right
      rotateLeft (node k v m h left right)
    else if left.getHeight = right.getHeight + 2 then
      let left :=
        if left.rightChild.getHeight > left.leftChild.getHeight then left.rotateLeft else left
      rotateRight (node k v m h left right)
    else node k v m h left right

/-- `add`: an existing node keeps its metadata. -/
def add (key : Bytes) (value : Transaction) : AVLNode → AVLNode
  | nil => node key value {} 1 nil nil
  | node k v m h left right =>
    match compare key k with
    | .lt => rebalanceTree (node k v m h (left.add key value) right)
    | .gt => rebalanceTree (node k v m h left (right.add key value))
    | .eq => rebalanceTree (node k value m h left right)

/-- `search`: the transaction and the metadata of the node found. -/
def search (key : Bytes) : AVLNode → Option (Transaction × DomainMetadata)
  | nil => none
  | node k v m _ left right =>
    match compare key k with
    | .lt => left.search key
    | .gt => right.search key
    | .eq => some (v, m)

/-- A write through the node that `search` returns. -/
def setMetadata (key : Bytes) (f : DomainMetadata → DomainMetadata) : AVLNode → AVLNode
  | nil => nil
  | node k v m h left right =>
    match compare key k with
    | .lt => node k v m h (left.setMetadata key f) right
    | .gt => node k v m h left (right.setMetadata key f)
    | .eq => node k v (f m) h left right

/-- `findNodeByTxID`: the node itself, then the left subtree, then the right one. -/
def findNodeByTxID (txID : Int64) : AVLNode → Option Transaction
  | nil => none
  | node _ v _ _ left right =>
    if v.tid = txID then some v else (left.findNodeByTxID txID).or (right.findNodeByTxID txID)

/-- The entries in the order of the keys. -/
def inOrder : AVLNode → List (Bytes × (Transaction × DomainMetadata))
  | nil => []
  | node k v m _ left right => left.inOrder ++ (k, (v, m)) :: right.inOrder

/-! ## Rotations -/

@[simp] theorem inOrder_recalculateHeight (n : AVLNode) :
    n.recalculateHeight.inOrder = n.inOrder := by
  cases n <;> rfl

@[simp] theorem inOrder_rotateLeft (n : AVLNode) : n.rotateLeft.inOrder = n.inOrder := by
  unfold rotateLeft
  split <;> simp [inOrder]

@[simp] theorem inOrder_rotateRight (n : AVLNode) : n.rotateRight.inOrder = n.inOrder := by
  unfold rotateRight
  split <;> simp [inOrder]

@[simp] theorem inOrder_rebalanceTree (n : AVLNode) : n.rebalanceTree.inOrder = n.inOrder := by
  cases n with
  | nil => rfl
  | node k v m h left right =>
    unfold rebalanceTree
    dsimp only
    split
    · rw [inOrder_rotateLeft]
      split <;> simp [inOrder]
    · split
      · rw [inOrder_rotateRight]
        split <;> simp [inOrder]
      · rfl

/-! ## Operations on the in-order list -/

/-- What `add` does to the payload of a key. -/
def replaceValue (value : Transaction) (old : Option (Transaction × DomainMetadata)) :
    Transaction × DomainMetadata :=
  (value, (old.map Prod.snd).getD {})

theorem inOrder_add {n : AVLNode} (key : Bytes) (value : Transaction)
    (hOrdered : Ascending compare n.inOrder) :
    (n.add key value).inOrder = alter compare key (replaceValue value) n.inOrder := by
  induction n with
  | nil => rfl
  | node k v m h left right ihLeft ihRight =>
    obtain ⟨hLeft, hRight, hBelow, -, -⟩ := ascending_append_cons.mp hOrdered
    simp only [add, inOrder]
    cases hCmp : compare key k with
    | lt =>
      rw [inOrder_rebalanceTree, inOrder, ihLeft hLeft]
      exact (alter_append_cons_lt hCmp).symm
    | gt =>
      rw [inOrder_rebalanceTree, inOrder, ihRight hRight]
      exact (alter_append_cons_gt hBelow hCmp).symm
    | eq =>
      rw [inOrder_rebalanceTree, inOrder, alter_append_cons_eq hBelow hCmp]
      rfl

theorem search_eq_assocLookup {n : AVLNode} (key : Bytes)
    (hOrdered : Ascending compare n.inOrder) :
    n.search key = assocLookup compare key n.inOrder := by
  induction n with
  | nil => rfl
  | node k v m h left right ihLeft ihRight =>
    obtain ⟨hLeft, hRight, hBelow, hAbove, -⟩ := ascending_append_cons.mp hOrdered
    simp only [search, inOrder]
    cases hCmp : compare key k with
    | lt => rw [ihLeft hLeft, assocLookup_append_cons_lt hAbove hCmp]
    | gt => rw [ihRight hRight, assocLookup_append_cons_gt hBelow hCmp]
    | eq => rw [assocLookup_append_cons_eq hBelow hCmp]

/-- What a search by number finds has the number. -/
theorem mem_of_findNodeByTxID {n : AVLNode} {txID : Int64} {t : Transaction}
    (h : n.findNodeByTxID txID = some t) : t.tid = txID ∧ ∃ e ∈ n.inOrder, e.2.1 = t := by
  induction n with
  | nil => exact absurd h (by simp [findNodeByTxID])
  | node k v m _ left right ihLeft ihRight =>
    simp only [findNodeByTxID] at h
    split at h
    · rename_i hTid
      obtain rfl := Option.some.inj h
      exact ⟨hTid, (k, (v, m)), by simp [inOrder], rfl⟩
    · rcases Option.or_eq_some_iff.mp h with hFound | ⟨-, hFound⟩
      · obtain ⟨hTid, e, he, hEq⟩ := ihLeft hFound
        exact ⟨hTid, e, List.mem_append_left _ he, hEq⟩
      · obtain ⟨hTid, e, he, hEq⟩ := ihRight hFound
        exact ⟨hTid, e, List.mem_append_right _ (List.mem_cons_of_mem _ he), hEq⟩

/-- A search for the number of a node finds something. -/
theorem findNodeByTxID_isSome {n : AVLNode} {e : Bytes × (Transaction × DomainMetadata)}
    (he : e ∈ n.inOrder) : (n.findNodeByTxID e.2.1.tid).isSome := by
  induction n with
  | nil => exact absurd he (by simp [inOrder])
  | node k v m _ left right ihLeft ihRight =>
    simp only [findNodeByTxID]
    split
    · rfl
    · rename_i hTid
      rw [Option.isSome_or, Bool.or_eq_true]
      rcases List.mem_append.mp he with he | he
      · exact .inl (ihLeft he)
      · rcases List.mem_cons.mp he with rfl | he
        · exact absurd rfl hTid
        · exact .inr (ihRight he)

/-- Keys and transactions, without the metadata. -/
def entries (n : AVLNode) : List (Bytes × Transaction) := n.inOrder.map fun e => (e.1, e.2.1)

theorem entries_setMetadata (n : AVLNode) (key : Bytes) (f : DomainMetadata → DomainMetadata) :
    (n.setMetadata key f).entries = n.entries := by
  unfold entries
  induction n with
  | nil => rfl
  | node k v m h left right ihLeft ihRight =>
    unfold setMetadata
    cases compare key k <;> simp [inOrder, ihLeft, ihRight]

theorem search_setMetadata (n : AVLNode) (key key' : Bytes)
    (f : DomainMetadata → DomainMetadata) :
    (n.setMetadata key f).search key' =
      (n.search key').map fun p => if key = key' then (p.1, f p.2) else p := by
  induction n with
  | nil => rfl
  | node k v m h left right ihLeft ihRight =>
    unfold setMetadata
    by_cases hKey : key = key'
    · subst hKey
      cases hCmp : compare key k <;> simp_all [search]
    · cases hCmp : compare key k <;> cases hCmp' : compare key' k <;> simp_all [search]

end AVLNode

theorem ascending_of_keys {α β : Type} {xs : List (Bytes × α)} {ys : List (Bytes × β)}
    (hKeys : xs.map Prod.fst = ys.map Prod.fst) (h : Ascending compare xs) :
    Ascending compare ys := by
  have hPair : (xs.map Prod.fst).Pairwise fun a b => compare a b = .lt :=
    List.pairwise_map.mpr h
  rw [hKeys] at hPair
  exact List.pairwise_map.mp hPair

theorem ascending_inOrder_nil : Ascending compare AVLNode.nil.inOrder := List.Pairwise.nil

/-- A tree whose keys are in order. -/
structure AVLTree where
  root : AVLNode := .nil
  ordered : Ascending compare root.inOrder := by exact Bdns.Index.ascending_inOrder_nil

namespace AVLTree

def add (t : AVLTree) (key : Bytes) (value : Transaction) : AVLTree where
  root := t.root.add key value
  ordered := by
    rw [AVLNode.inOrder_add key value t.ordered]
    exact ascending_alter t.ordered

def search (t : AVLTree) (key : Bytes) : Option (Transaction × DomainMetadata) :=
  t.root.search key

def setMetadata (t : AVLTree) (key : Bytes) (f : DomainMetadata → DomainMetadata) : AVLTree where
  root := t.root.setMetadata key f
  ordered := by
    have hKeys := congrArg (List.map Prod.fst) (t.root.entries_setMetadata key f)
    simp only [AVLNode.entries, List.map_map] at hKeys
    exact ascending_of_keys hKeys.symm t.ordered

def findNodeByTxID (t : AVLTree) (txID : Int64) : Option Transaction :=
  t.root.findNodeByTxID txID

@[simp] theorem search_empty (key : Bytes) : (AVLTree.mk .nil).search key = none := rfl

/-- `add` replaces the transaction of its key, keeps the metadata, and touches nothing else. -/
theorem search_add (t : AVLTree) (key key' : Bytes) (value : Transaction) :
    (t.add key value).search key' =
      if key = key' then some (value, ((t.search key).map Prod.snd).getD {})
      else t.search key' := by
  unfold search
  rw [AVLNode.search_eq_assocLookup key' (t.add key value).ordered,
    AVLNode.search_eq_assocLookup key t.ordered, AVLNode.search_eq_assocLookup key' t.ordered, add,
    AVLNode.inOrder_add key value t.ordered, assocLookup_alter t.ordered]
  by_cases hKey : key = key'
  · subst hKey
    rw [if_pos ReflCmp.compare_self, if_pos rfl]
    rfl
  · rw [if_neg hKey, if_neg]
    exact fun hCmp => hKey (LawfulEqCmp.eq_of_compare hCmp).symm

theorem search_of_mem (t : AVLTree) {e : Bytes × (Transaction × DomainMetadata)}
    (he : e ∈ t.root.inOrder) : t.search e.1 = some e.2 :=
  (AVLNode.search_eq_assocLookup e.1 t.ordered).trans (assocLookup_of_mem t.ordered he)

theorem mem_of_search (t : AVLTree) {key : Bytes} {node : Transaction × DomainMetadata}
    (h : t.search key = some node) : (key, node) ∈ t.root.inOrder := by
  rw [search, AVLNode.search_eq_assocLookup key t.ordered] at h
  exact exists_mem_of_assocLookup h

/-- The transactions of a tree after `add` are the old ones and the new one. -/
theorem mem_add (t : AVLTree) {key : Bytes} {value : Transaction}
    {e : Bytes × (Transaction × DomainMetadata)} (he : e ∈ (t.add key value).root.inOrder) :
    e ∈ t.root.inOrder ∨ e.2.1 = value := by
  rw [add, AVLNode.inOrder_add key value t.ordered] at he
  rcases mem_alter he with he | ⟨old, hOld⟩
  · exact Or.inl he
  · exact Or.inr (by rw [hOld]; rfl)

theorem search_of_findNodeByTxID (t : AVLTree) {txID : Int64} {tx : Transaction}
    (h : t.findNodeByTxID txID = some tx) : tx.tid = txID ∧ ∃ key m, t.search key = some (tx, m) := by
  obtain ⟨hTid, e, he, rfl⟩ := AVLNode.mem_of_findNodeByTxID h
  exact ⟨hTid, e.1, e.2.2, t.search_of_mem he⟩

theorem findNodeByTxID_of_search (t : AVLTree) {key : Bytes} {node : Transaction × DomainMetadata}
    (h : t.search key = some node) : (t.findNodeByTxID node.1.tid).isSome :=
  AVLNode.findNodeByTxID_isSome (t.mem_of_search h)

/-- Where no number stands under two keys, a search by number does not see the shape of the tree. -/
theorem findNodeByTxID_congr {t t' : AVLTree} (hSame : ∀ key, t.search key = t'.search key)
    (hOne : ∀ key key' node node', t.search key = some node → t.search key' = some node' →
      node.1.tid = node'.1.tid → key = key') (txID : Int64) :
    t.findNodeByTxID txID = t'.findNodeByTxID txID := by
  cases hFirst : t.findNodeByTxID txID with
  | none =>
    cases hSecond : t'.findNodeByTxID txID with
    | none => rfl
    | some tx =>
      obtain ⟨rfl, key, m, hSearch⟩ := t'.search_of_findNodeByTxID hSecond
      rw [← hSame] at hSearch
      have hSome := t.findNodeByTxID_of_search hSearch
      rw [hFirst] at hSome
      exact absurd hSome (by simp)
  | some tx =>
    obtain ⟨rfl, key, m, hSearch⟩ := t.search_of_findNodeByTxID hFirst
    have hSome := t'.findNodeByTxID_of_search (hSame key ▸ hSearch)
    obtain ⟨tx', hSecond⟩ := Option.isSome_iff_exists.mp hSome
    obtain ⟨hTid, key', m', hSearch'⟩ := t'.search_of_findNodeByTxID hSecond
    rw [← hSame] at hSearch'
    obtain rfl := hOne key key' _ _ hSearch hSearch' hTid.symm
    obtain ⟨rfl, -⟩ := Prod.mk.inj (Option.some.inj (hSearch.symm.trans hSearch'))
    exact hSecond.symm

theorem search_setMetadata (t : AVLTree) (key key' : Bytes)
    (f : DomainMetadata → DomainMetadata) :
    (t.setMetadata key f).search key' =
      (t.search key').map fun p => if key = key' then (p.1, f p.2) else p :=
  t.root.search_setMetadata key key' f

end AVLTree

end Bdns.Index
