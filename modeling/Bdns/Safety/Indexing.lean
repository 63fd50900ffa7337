import Bdns.Safety.Entries

/-!
# How often a block is indexed

`AddBlock` flushes the index overlay twice: at the end of `ValidateBlock`, and once more itself.
The writes to the tree, to the locations and to the spent transactions are the same the second
time, but the lists by expiry slot and by purge slot are appended to. The leader that seals a
block flushes its overlay once.
-/

namespace Bdns.Safety

open Lib Blockchain Network Index

/-- No transaction that a journal adds has an expiry slot. -/
def Undated (o : IndexOverlay) : Prop :=
  ∀ (d : Bytes) (entry : OverlayEntry) (t : Transaction), o.journal[d]? = some entry →
    entry.addedTx = some t → ¬ 0 < t.expirySlot

/-! ## Two flushes -/

section Flush

variable {E : External} {o : IndexOverlay}
  {range range' : List (Bytes × OverlayEntry) → List (Bytes × OverlayEntry)}

theorem Undated.listedAt_eq_nil (h : Undated o) (hRange : ∀ xs, (range xs).Perm xs)
    (slotOf : Transaction → Int64) (slot : Int64) :
    (range o.journal.toList).flatMap (listedAt slotOf slot) = [] := by
  refine List.flatMap_eq_nil_iff.mpr fun e he => List.eq_nil_iff_forall_not_mem.mpr fun t ht => ?_
  obtain ⟨hAdded, hPositive, -⟩ := mem_listedAt.mp ht
  have hEntry := Std.ExtTreeMap.mem_toList_iff_getElem?_eq_some.mp ((hRange _).mem_iff.mp he)
  exact h e.1 e.2 t hEntry hAdded hPositive

/-- What the journal adds is as long in every order. -/
theorem listedAt_perm (hRange : ∀ xs, (range xs).Perm xs) (hRange' : ∀ xs, (range' xs).Perm xs)
    (slotOf : Transaction → Int64) (slot : Int64) :
    ((range o.journal.toList).flatMap (listedAt slotOf slot)).Perm
      ((range' o.journal.toList).flatMap (listedAt slotOf slot)) :=
  ((hRange _).trans (hRange' _).symm).flatMap_right _

/-- If a second flush leaves the lists by expiry slot as one flush has them, the journal adds
nothing to them. -/
theorem undated_of_expiryIndex_eq
    {range'' : List (Bytes × OverlayEntry) → List (Bytes × OverlayEntry)} {target : IndexManager}
    (hRange : ∀ xs, (range xs).Perm xs)
    (hRange' : ∀ xs, (range' xs).Perm xs) (hRange'' : ∀ xs, (range'' xs).Perm xs)
    (h : (o.commit E range' (o.commit E range target)).expiryIndex =
      (o.commit E range'' target).expiryIndex) : Undated o := by
  intro d entry t hEntry hAdded hPositive
  have hSlot := congrFun h t.expirySlot
  rw [(lists_commit o range' _ _).1, (lists_commit o range _ _).1, (lists_commit o range'' _ _).1,
    List.append_assoc, List.append_cancel_left_eq] at hSlot
  have hLength := congrArg List.length hSlot
  have hFirst := (listedAt_perm (o := o) hRange hRange'' Transaction.expirySlot
    t.expirySlot).length_eq
  rw [List.length_append, hFirst] at hLength
  -- so the first of the two flushes adds nothing under the slot of `t`, which it does add
  have hNone : (range' o.journal.toList).flatMap (listedAt Transaction.expirySlot t.expirySlot) =
      [] := List.length_eq_zero_iff.mp (by omega)
  have hMem : (d, entry) ∈ range' o.journal.toList :=
    (hRange' _).mem_iff.mpr (Std.ExtTreeMap.mem_toList_iff_getElem?_eq_some.mpr hEntry)
  have hListed := List.flatMap_eq_nil_iff.mp hNone _ hMem
  have hHere : t ∈ listedAt Transaction.expirySlot t.expirySlot (d, entry) :=
    mem_listedAt.mpr ⟨hAdded, hPositive, rfl⟩
  rw [hListed] at hHere
  exact absurd hHere List.not_mem_nil

end Flush

/-! ## Along a chain -/

/-- Whatever a validating node lists for a purge slot, it lists at least twice. -/
theorem count_purgeIndex_of_chain {env : Env} {blocks : List Block} {s : ChainState}
    (hChain : Chain env blocks s) (slot : Int64) (t : Transaction)
    (hMem : t ∈ s.index.purgeIndex slot) : 2 ≤ (s.index.purgeIndex slot).count t := by
  induction hChain generalizing t with
  | genesis block => exact absurd hMem List.not_mem_nil
  | @add blocks s latest b order slotLeader staged chain tip accepted ih =>
    have hLists : (installValidated env order b.transactions staged s).index.purgeIndex slot =
        _ := (lists_commit staged.im (order.run (b.transactions.length + 1)) _ slot).2
    have hFirst := (lists_commit (E := env.E) staged.im (order.run b.transactions.length) s.index
      slot).2
    rw [hLists, hFirst] at hMem ⊢
    have hPerm := (listedAt_perm (o := staged.im) (order.perm b.transactions.length)
      (order.perm (b.transactions.length + 1))
      (fun t => computePurgeSlot t.expirySlot staged.im.slotsPerDay) slot)
    have hCount := hPerm.count_eq t
    rw [List.mem_append, List.mem_append] at hMem
    rw [List.count_append, List.count_append]
    rcases hMem with (hOld | hNew) | hNew
    · have := ih t hOld
      omega
    · have := List.count_pos_iff.mpr hNew
      omega
    · have := List.count_pos_iff.mpr hNew
      omega

/-- A validating node indexes a block as one flush would, exactly where the block adds no
transaction with an expiry slot. Along every chain of blocks that it accepts, no transaction is
listed twice for a purge slot exactly where nothing is listed at all. -/
theorem indexed_once_iff (env : Env) :
    (∀ (s : ChainState) (b latest : Block) (order : JournalOrder) (slotLeader : Bytes)
        (staged : Staged) (range : List (Bytes × OverlayEntry) → List (Bytes × OverlayEntry)),
      validateBlock env order s b latest slotLeader = .ok staged →
      (∀ xs, (range xs).Perm xs) →
      ((installValidated env order b.transactions staged s).index.expiryIndex =
            (staged.im.commit env.E range s.index).expiryIndex ∧
          (installValidated env order b.transactions staged s).index.purgeIndex =
            (staged.im.commit env.E range s.index).purgeIndex ↔ Undated staged.im)) ∧
      ∀ (blocks : List Block) (s : ChainState), Chain env blocks s →
        ((∀ slot, (s.index.getPurgeableDomains slot).Nodup) ↔
          ∀ slot, s.index.getPurgeableDomains slot = []) := by
  refine ⟨fun s b latest order slotLeader staged range _ hRange => ⟨fun h => ?_, fun h => ?_⟩,
    fun blocks s hChain => ⟨fun hNodup slot => ?_, fun hNil slot => ?_⟩⟩
  · exact undated_of_expiryIndex_eq (order.perm _) (order.perm _) hRange h.1
  · have hLists := fun (range : List (Bytes × OverlayEntry) → List (Bytes × OverlayEntry))
        (hRange : ∀ xs, (range xs).Perm xs) (target : IndexManager) (slot : Int64) => by
      have hCommit := lists_commit (E := env.E) staged.im range target slot
      rw [h.listedAt_eq_nil hRange, h.listedAt_eq_nil hRange, List.append_nil,
        List.append_nil] at hCommit
      exact hCommit
    constructor
    · funext slot
      rw [(hLists range hRange s.index slot).1]
      exact ((hLists _ (order.perm _) _ slot).1).trans (hLists _ (order.perm _) _ slot).1
    · funext slot
      rw [(hLists range hRange s.index slot).2]
      exact ((hLists _ (order.perm _) _ slot).2).trans (hLists _ (order.perm _) _ slot).2
  · refine List.eq_nil_iff_forall_not_mem.mpr fun t ht => ?_
    have hTwice := count_purgeIndex_of_chain hChain slot t ht
    have hOnce := List.nodup_iff_count_le_one.mp (hNodup slot) t
    exact absurd (hTwice.trans hOnce) (by decide)
  · rw [hNil slot]
    exact List.nodup_nil

/-- A block with a COMMIT is indexed as one flush would. -/
theorem indexed_once_iff_commit :
    ∃ staged, validateBlock StandIn.registryEnv (.ascending _ _) (StandIn.registryChain 0).1
        (StandIn.registryChain 1).2 (StandIn.registryChain 0).2 (utf8 "registry") = .ok staged ∧
      (installValidated StandIn.registryEnv (.ascending _ _)
          (StandIn.registryChain 1).2.transactions staged
          (StandIn.registryChain 0).1).index.purgeIndex =
        (staged.im.commit StandIn.registryEnv.E id
          (StandIn.registryChain 0).1.index).purgeIndex := by
  obtain ⟨staged, hStaged, hEmpty⟩ := exists_of_any
    (p := fun staged : Staged => staged.im.journal.isEmpty) (by decide +kernel :
      (validateBlock StandIn.registryEnv (.ascending _ _) (StandIn.registryChain 0).1
        (StandIn.registryChain 1).2 (StandIn.registryChain 0).2
        (utf8 "registry")).toOption.any (fun staged => staged.im.journal.isEmpty) = true)
  have hUndated : Undated staged.im := by
    intro d entry t hEntry
    rw [Std.ExtTreeMap.isEmpty_iff.mp hEmpty] at hEntry
    simp at hEntry
  exact ⟨staged, hStaged, (((indexed_once_iff StandIn.registryEnv).1 _ _ _ _ _ staged id hStaged
    fun _ => .refl _).mpr hUndated).2⟩

/-- A registration that expires at slot 1000 is listed twice for its purge slot. -/
theorem registration_listed_twice :
    Chain StandIn.registryEnv (StandIn.registryBlocks 2) (StandIn.registryChain 2).1 ∧
      (StandIn.registryChain 2).1.index.getPurgeableDomains 1030 =
        [StandIn.revealTx 2 1 1 [1] 1000, StandIn.revealTx 2 1 1 [1] 1000] :=
  ⟨StandIn.chain_registryBlocks (by decide), by decide +kernel⟩

end Bdns.Safety
