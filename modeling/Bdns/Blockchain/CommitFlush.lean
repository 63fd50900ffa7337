import Bdns.Blockchain.Commit
import Bdns.Blockchain.StandIn

/-!
# Flushing the commit overlay

A block is processed on an overlay over the pending commits, which is flushed to the store when
the block is accepted. `GetCommit`, `Hash` and `Commit` each resolve in their own way what is in
more than one of the overlay's maps. They give one picture exactly where every expired commit has
been purged and no added commit is among the purged or consumed ones.
-/

namespace Bdns.Blockchain

open Lib Std

namespace CommitOverlay

/-- The overlays that a block can reach over a store: commits are added where none is pending and
consumed where one is. -/
inductive Reached (store : CommitStore) (blockIndex : Int64) : CommitOverlay → Prop
  | new : Reached store blockIndex (newCommitOverlay store blockIndex)
  | purgeExpired {co : CommitOverlay} (h : Reached store blockIndex co) (currentBlockIndex : Int64) :
    Reached store blockIndex (co.purgeExpired currentBlockIndex)
  | addCommit {co : CommitOverlay} (h : Reached store blockIndex co) {record : CommitRecord}
    (hNone : co.getCommit record.key = none) : Reached store blockIndex (co.addCommit record)
  | consumeCommit {co : CommitOverlay} (h : Reached store blockIndex co) {key : Bytes}
    (hSome : co.getCommit key ≠ none) : Reached store blockIndex (co.consumeCommit key)

/-- A commit that `Hash` leaves out and `Commit` deletes, unless it was added. -/
def Gone (co : CommitOverlay) (key : Bytes) : Prop := co.consumed key = true ∨ co.purged key = true

/-- Nothing in the base has expired without a trace. -/
def Purged (co : CommitOverlay) : Prop :=
  ∀ key rec, co.base[key]? = some rec → rec.expiryBlock < co.blockIndex →
    co.Gone key ∨ key ∈ co.added

/-- No commit is both added and gone. -/
def Unburied (co : CommitOverlay) : Prop := ∀ key ∈ co.added, ¬ co.Gone key

section Reached

variable {store : CommitStore} {blockIndex : Int64} {co : CommitOverlay}

theorem Reached.base_eq (h : Reached store blockIndex co) :
    co.base = store.pending ∧ co.blockIndex = blockIndex := by
  induction h with
  | new => exact ⟨rfl, rfl⟩
  | purgeExpired _ _ ih => exact ih
  | addCommit _ _ ih => exact ih
  | consumeCommit _ _ ih => exact ih

/-- The store after the flush agrees with `GetCommit` at one key. -/
theorem getCommit_commit_iff (h : Reached store blockIndex co) (key : Bytes) :
    (co.commit store).getCommit key = co.getCommit key ↔
      ∀ rec, co.base[key]? = some rec → rec.expiryBlock < co.blockIndex →
        co.Gone key ∨ key ∈ co.added := by
  have hBase : store.getCommit key = co.base[key]? := by rw [h.base_eq.1]; rfl
  rw [getCommit_commit, hBase]
  unfold getCommit Gone
  by_cases hGone : co.consumed key || co.purged key
  · rw [if_pos hGone, if_pos hGone]
    simp only [Bool.or_eq_true] at hGone
    exact iff_of_true rfl fun _ _ _ => .inl hGone
  · rw [if_neg hGone, if_neg hGone]
    simp only [Bool.or_eq_true] at hGone
    cases hAdded : co.added[key]? with
    | some rec =>
      have hMem : key ∈ co.added := ExtTreeMap.mem_iff_isSome_getElem?.mpr (by simp [hAdded])
      exact iff_of_true rfl fun _ _ _ => .inr hMem
    | none =>
      have hMem : key ∉ co.added := by simp [ExtTreeMap.mem_iff_isSome_getElem?, hAdded]
      cases hOld : co.base[key]? with
      | none => simp
      | some rec => simp [Option.filter, hGone, hMem]

/-- What the store holds after the flush is what `Hash` merges, without the commits that are gone. -/
theorem pending_commit (h : Reached store blockIndex co) :
    (co.commit store).pending = co.merged.filter fun k _ => !co.consumed k && !co.purged k := by
  ext1 key
  simp only [commit, merged, h.base_eq.1, ExtTreeMap.getElem?_filter', ExtTreeMap.getElem?_union]
  cases co.added[key]? <;> cases store.pending[key]? <;>
    cases co.consumed key <;> cases co.purged key <;> simp

end Reached

/-- The length of the digested text. -/
theorem length_hashDataOf (pending : ExtTreeMap Bytes CommitRecord compare) :
    (CommitStore.hashDataOf pending).length = total (fun rec => rec.hashData.length) pending := by
  simp [CommitStore.hashDataOf, total, List.length_flatMap]

theorem hashData_pos (rec : CommitRecord) : 0 < rec.hashData.length := by
  simp only [CommitRecord.hashData, List.length_append, length_intToByteArr]
  omega

/-- A record that is left out shows in the length. -/
theorem length_hashDataOf_filter_lt {m : ExtTreeMap Bytes CommitRecord compare} {p : Bytes → Bool}
    {key : Bytes} {rec : CommitRecord} (hGet : m[key]? = some rec) (hOut : p key = false) :
    (CommitStore.hashDataOf (m.filter fun k _ => p k)).length <
      (CommitStore.hashDataOf m).length := by
  have hErase : total (fun rec : CommitRecord => rec.hashData.length) (m.filter fun k _ => p k) ≤
      total (fun rec => rec.hashData.length) (m.erase key) := by
    refine total_mono _ fun k => ?_
    rw [getElem?_erase_eq_ite, ExtTreeMap.getElem?_filter']
    by_cases hk : key = k
    · subst hk
      simp [hGet, hOut]
    · rw [if_neg hk]
      cases m[k]? with
      | none => simp
      | some r => cases p k <;> simp [Option.filter]
  have hSplit := total_eq_add_erase (fun rec : CommitRecord => rec.hashData.length) hGet
  have hPos := hashData_pos rec
  rw [length_hashDataOf, length_hashDataOf]
  omega

/-- The texts that store and overlay digest agree where no added commit is gone. -/
theorem hashDataOf_commit_iff {store : CommitStore} {blockIndex : Int64} {co : CommitOverlay}
    (h : Reached store blockIndex co) :
    CommitStore.hashDataOf (co.commit store).pending = CommitStore.hashDataOf co.merged ↔
      co.Unburied := by
  rw [pending_commit h]
  constructor
  · intro hText key hAdded hGone
    obtain ⟨rec, hRec⟩ := Option.isSome_iff_exists.mp (ExtTreeMap.mem_iff_isSome_getElem?.mp hAdded)
    have hMerged : co.merged[key]? = some rec := by
      simp [merged, ExtTreeMap.getElem?_union, hRec]
    have hOut : (!co.consumed key && !co.purged key) = false := by
      rcases hGone with hGone | hGone <;> simp [hGone]
    have hLess := length_hashDataOf_filter_lt
      (p := fun k => !co.consumed k && !co.purged k) hMerged hOut
    rw [hText] at hLess
    exact absurd hLess (Nat.lt_irrefl _)
  · intro hUnburied
    congr 1
    ext1 key
    have hKept : ∀ rec, co.merged[key]? = some rec →
        (!co.consumed key && !co.purged key) = true := by
      intro rec hMerged
      simp only [merged, ExtTreeMap.getElem?_union, ExtTreeMap.getElem?_filter'] at hMerged
      cases hAdded : co.added[key]? with
      | some added =>
        have hStays := hUnburied key (by simp [ExtTreeMap.mem_iff_isSome_getElem?, hAdded])
        simpa [Gone] using hStays
      | none =>
        rw [hAdded, Option.none_or] at hMerged
        exact (Option.filter_eq_some_iff.mp hMerged).2
    rw [ExtTreeMap.getElem?_filter']
    cases hMerged : co.merged[key]? with
    | none => rfl
    | some rec => simpa [Option.filter] using hKept rec hMerged

/-! ## The two conditions -/

/-- The purge with which a block starts takes care of the first condition. -/
theorem purged_purgeExpired (co : CommitOverlay) : (co.purgeExpired co.blockIndex).Purged := by
  intro key rec hBase hExpired
  have hOld : co.base[key]? = some rec := hBase
  by_cases hConsumed : co.consumed key = true
  · exact .inl (.inl hConsumed)
  · refine .inl (.inr ?_)
    have hLt : rec.expiryBlock < co.blockIndex := hExpired
    simp [purgeExpired, hOld, hConsumed, hLt]

theorem Purged.addCommit {co : CommitOverlay} (h : co.Purged) (record : CommitRecord) :
    (co.addCommit record).Purged := by
  intro key rec hBase hExpired
  refine (h key rec hBase hExpired).imp_right fun hAdded => ?_
  exact ExtTreeMap.mem_insert.mpr (.inr hAdded)

/-- What remains is not to add a commit that is gone. -/
theorem Unburied.addCommit {co : CommitOverlay} (h : co.Unburied) {record : CommitRecord}
    (hStays : ¬ co.Gone record.key) : (co.addCommit record).Unburied := by
  intro key hAdded
  rcases ExtTreeMap.mem_insert.mp hAdded with hKey | hOld
  · rw [LawfulEqCmp.compare_eq_iff_eq] at hKey
    exact hKey ▸ hStays
  · exact h key hOld

theorem unburied_of_added_empty {co : CommitOverlay} (h : co.added = ∅) : co.Unburied := by
  intro key hAdded
  rw [h] at hAdded
  exact absurd hAdded ExtTreeMap.not_mem_empty

end CommitOverlay

/-- For every overlay that a block reaches over a store: the flushed store holds what `GetCommit`
reports and has the hash that the overlay reports, exactly where every expired commit of the base
has been purged and no added commit is among the purged or consumed ones. -/
theorem commit_flush_agrees_iff {E : External} {store : CommitStore} {blockIndex : Int64}
    {co : CommitOverlay} (h : co.Reached store blockIndex)
    (hInj : Set.InjOn E.sha256 {CommitStore.hashDataOf (co.commit store).pending,
      CommitStore.hashDataOf co.merged}) :
    ((∀ key, (co.commit store).getCommit key = co.getCommit key) ∧
        (co.commit store).hash E = co.hash E) ↔
      co.Purged ∧ co.Unburied := by
  have hHash : (co.commit store).hash E = co.hash E ↔ co.Unburied := by
    rw [← CommitOverlay.hashDataOf_commit_iff h]
    exact ⟨fun hEq => hInj (by simp) (by simp) hEq, fun hEq => congrArg E.sha256 hEq⟩
  rw [hHash]
  refine and_congr_left fun _ => ?_
  exact forall_congr' (CommitOverlay.getCommit_commit_iff h)

/-- A COMMIT of block `commitBlock` to the hash `commitHash`. -/
def sampleCommit (commitHash : Bytes) (commitBlock : Int64) : CommitRecord :=
  { commitHash, committerPK := utf8 "registry", commitBlock, commitSlot := commitBlock
    commitTID := commitBlock, expiryBlock := commitBlock + 100 }

/-- A store with a COMMIT of the first block. -/
def sampleStore : CommitStore := CommitStore.addCommit {} (sampleCommit [1] 1)

/-- The COMMIT has expired in block 102, which purges it and adds another. -/
def sampleOverlay (commitHash : Bytes) : CommitOverlay :=
  ((CommitOverlay.newCommitOverlay sampleStore 102).purgeExpired 102).addCommit
    (sampleCommit commitHash 102)

theorem sampleOverlay_reached {commitHash : Bytes} (h : commitHash = [1] ∨ commitHash = [2]) :
    (sampleOverlay commitHash).Reached sampleStore 102 := by
  refine .addCommit (.purgeExpired .new 102) ?_
  rcases h with rfl | rfl <;> decide +kernel

theorem commit_flush_agrees_iff_other :
    (∀ key, ((sampleOverlay [2]).commit sampleStore).getCommit key =
        (sampleOverlay [2]).getCommit key) ∧
      ((sampleOverlay [2]).commit sampleStore).hash (.standIn fun _ => none) =
        (sampleOverlay [2]).hash (.standIn fun _ => none) := by
  have hReached : (sampleOverlay [2]).Reached sampleStore 102 := sampleOverlay_reached (.inr rfl)
  have hStart : ((CommitOverlay.newCommitOverlay sampleStore 102).purgeExpired 102).Unburied :=
    CommitOverlay.unburied_of_added_empty (ExtTreeMap.isEmpty_iff.mp (by decide +kernel))
  have hUnburied : (sampleOverlay [2]).Unburied := hStart.addCommit (by
    unfold CommitOverlay.Gone
    decide +kernel)
  have hText := (CommitOverlay.hashDataOf_commit_iff hReached).mpr hUnburied
  refine (commit_flush_agrees_iff hReached ?_).mpr ⟨?_, hUnburied⟩
  · rw [hText, Set.pair_eq_singleton]
    exact Set.injOn_singleton _ _
  · exact (CommitOverlay.purged_purgeExpired _).addCommit _

/-- The same hash is committed to again in the block in which the first COMMIT expires. `Hash`
counts the new COMMIT, `Commit` deletes it. -/
theorem recommitted_hash_is_dropped :
    (sampleOverlay [1]).Reached sampleStore 102 ∧
      (sampleOverlay [1]).merged.toList.map Prod.snd = [sampleCommit [1] 102] ∧
      ((sampleOverlay [1]).commit sampleStore).pending.toList = [] ∧
      ((sampleOverlay [1]).commit sampleStore).hash (.standIn fun _ => none) ≠
        (sampleOverlay [1]).hash (.standIn fun _ => none) :=
  ⟨sampleOverlay_reached (.inl rfl), by decide +kernel, by decide +kernel, by decide +kernel⟩

end Bdns.Blockchain
