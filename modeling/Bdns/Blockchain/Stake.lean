import Bdns.Blockchain.Block
import Bdns.Lib.FiniteMap

/-!
# Stakes and pending unstakes

`stake.go`. The stake map drops an entry when its stake reaches zero, so a validator with
no entry and one with stake zero look alike (`getStake`). The unstake queue is a list in
the order of arrival.
-/

namespace Bdns.Blockchain

open Lib Std

structure StakeRecord where
  stakedBalance : UInt64 := 0
  deriving DecidableEq

structure StakeMap where
  entries : ExtTreeMap Bytes StakeRecord compare := ∅

namespace StakeMap

def getStake (sm : StakeMap) (validatorHex : Bytes) : UInt64 :=
  ((sm.entries[validatorHex]?).getD {}).stakedBalance

def addStake (sm : StakeMap) (validatorHex : Bytes) (amount : UInt64) : StakeMap :=
  ⟨sm.entries.insert validatorHex ⟨sm.getStake validatorHex + amount⟩⟩

/-- `ReduceStake`: an amount at or above the stake deletes the entry. -/
def reduceStake (sm : StakeMap) (validatorHex : Bytes) (amount : UInt64) : StakeMap :=
  match sm.entries[validatorHex]? with
  | none => sm
  | some r =>
    if r.stakedBalance ≤ amount then ⟨sm.entries.erase validatorHex⟩
    else ⟨sm.entries.insert validatorHex ⟨r.stakedBalance - amount⟩⟩

def getAll (sm : StakeMap) : ExtTreeMap Bytes UInt64 compare :=
  sm.entries.map fun _ r => r.stakedBalance

/-- The bytes `Hash` digests: the positive stakes in the order of their keys. -/
def hashData (sm : StakeMap) : Bytes :=
  (sm.entries.toList.filter fun e => 0 < e.2.stakedBalance).flatMap fun e =>
    hexDecode e.1 ++ intToByteArr e.2.stakedBalance.toInt64

def hash (E : External) (sm : StakeMap) : Bytes := E.sha256 sm.hashData

/-- The coins of all validators. -/
def staked (sm : StakeMap) : Nat := total (fun r => r.stakedBalance.toNat) sm.entries

theorem getStake_le_staked (sm : StakeMap) (v : Bytes) : (sm.getStake v).toNat ≤ sm.staked := by
  unfold getStake
  cases h : sm.entries[v]? with
  | none => simp
  | some r => exact le_total (fun r : StakeRecord => r.stakedBalance.toNat) h

theorem getStake_addStake (sm : StakeMap) (v v' : Bytes) (amount : UInt64) :
    (sm.addStake v amount).getStake v' =
      if v = v' then sm.getStake v + amount else sm.getStake v' := by
  simp only [getStake, addStake, getElem?_insert_eq_ite]
  split <;> rfl

theorem staked_insert (sm : StakeMap) (v : Bytes) (amount : UInt64) :
    (StakeMap.mk (sm.entries.insert v ⟨amount⟩)).staked + (sm.getStake v).toNat =
      sm.staked + amount.toNat := by
  have h := total_insert_add (fun r : StakeRecord => r.stakedBalance.toNat) sm.entries v ⟨amount⟩
  unfold staked getStake
  cases hv : sm.entries[v]? with
  | none => simpa [hv] using h
  | some r => simpa [hv] using h

theorem staked_addStake_le (sm : StakeMap) (v : Bytes) (amount : UInt64) :
    (sm.addStake v amount).staked ≤ sm.staked + amount.toNat := by
  have h := staked_insert sm v (sm.getStake v + amount)
  have hAdd : (sm.getStake v + amount).toNat ≤ (sm.getStake v).toNat + amount.toNat := by
    rw [UInt64.toNat_add]
    exact Nat.mod_le _ _
  unfold addStake
  omega

/-- Stakes that are pointwise smaller are smaller in total. -/
theorem staked_mono {sm sm' : StakeMap}
    (h : ∀ v, (sm.getStake v).toNat ≤ (sm'.getStake v).toNat) : sm.staked ≤ sm'.staked := by
  have hNat : ∀ (sm : StakeMap) (v : Bytes), (sm.getStake v).toNat =
      ((sm.entries[v]?).map fun r => r.stakedBalance.toNat).getD 0 := by
    intro sm v
    unfold getStake
    cases sm.entries[v]? <;> rfl
  refine total_mono _ fun v => ?_
  rw [← hNat, ← hNat]
  exact h v

/-- Reducing takes the amount, but never more than is there. -/
theorem getStake_reduceStake (sm : StakeMap) (v v' : Bytes) (amount : UInt64) :
    (sm.reduceStake v amount).getStake v' =
      if v = v' then (if sm.getStake v ≤ amount then 0 else sm.getStake v - amount)
      else sm.getStake v' := by
  unfold reduceStake
  cases hv : sm.entries[v]? with
  | none =>
    by_cases hvv : v = v'
    · subst hvv
      simp [getStake, hv]
    · simp [hvv]
  | some r =>
    have hStake : sm.getStake v = r.stakedBalance := by simp [getStake, hv]
    dsimp only
    rw [hStake]
    split
    · simp only [getStake, getElem?_erase_eq_ite]
      split <;> rfl
    · simp only [getStake, getElem?_insert_eq_ite]
      split <;> rfl

theorem staked_reduceStake (sm : StakeMap) (v : Bytes) (amount : UInt64) :
    (sm.reduceStake v amount).staked + min amount.toNat (sm.getStake v).toNat = sm.staked := by
  unfold reduceStake
  cases hv : sm.entries[v]? with
  | none => simp [getStake, hv]
  | some r =>
    have hStake : sm.getStake v = r.stakedBalance := by simp [getStake, hv]
    dsimp only
    split
    · rename_i hLe
      have h := total_erase_add (fun r : StakeRecord => r.stakedBalance.toNat) sm.entries v
      have hNat := UInt64.le_iff_toNat_le.mp hLe
      rw [hStake, Nat.min_eq_right hNat]
      simpa [staked, hv] using h
    · rename_i hLt
      have h := staked_insert sm v (r.stakedBalance - amount)
      have hNat : amount.toNat < r.stakedBalance.toNat := by
        simpa [UInt64.le_iff_toNat_le] using hLt
      have hSub := UInt64.toNat_sub_of_le r.stakedBalance amount
        (UInt64.le_iff_toNat_le.mpr (by omega))
      rw [hStake] at h ⊢
      omega

theorem staked_reduceStake_le (sm : StakeMap) (v : Bytes) (amount : UInt64) :
    (sm.reduceStake v amount).staked ≤ sm.staked := by
  have := staked_reduceStake sm v amount
  omega

theorem getStake_reduceStake_le (sm : StakeMap) (v v' : Bytes) (amount : UInt64) :
    ((sm.reduceStake v amount).getStake v').toNat ≤ (sm.getStake v').toNat := by
  rw [getStake_reduceStake]
  split
  · rename_i hv
    subst hv
    split
    · exact Nat.zero_le _
    · rename_i hLt
      rw [UInt64.toNat_sub_of_le _ _ (UInt64.le_of_lt (by simpa using hLt))]
      exact Nat.sub_le _ _
  · exact Nat.le_refl _

end StakeMap

/-- One queued unstake awaiting maturity. -/
structure PendingUnstake where
  validatorHex : Bytes
  amount : UInt64
  /-- The slot at which the coins become liquid. -/
  matureSlot : UInt64
  deriving DecidableEq

structure UnstakeQueue where
  pending : List PendingUnstake := []

namespace UnstakeQueue

def enqueue (uq : UnstakeQueue) (validatorHex : Bytes) (amount matureSlot : UInt64) :
    UnstakeQueue :=
  ⟨uq.pending ++ [⟨validatorHex, amount, matureSlot⟩]⟩

/-- `SweepMature`: the remaining queue and the matured entries. -/
def sweepMature (uq : UnstakeQueue) (currentSlot : UInt64) : UnstakeQueue × List PendingUnstake :=
  (⟨uq.pending.filter fun e => ¬ e.matureSlot ≤ currentSlot⟩,
    uq.pending.filter fun e => e.matureSlot ≤ currentSlot)

/-- `GetPendingStake`: a running `uint64` sum. -/
def getPendingStake (uq : UnstakeQueue) (validatorHex : Bytes) : UInt64 :=
  uq.pending.foldl (fun total e => if e.validatorHex = validatorHex then total + e.amount else total) 0

/-- The loop of `BurnPending`: the entries as it leaves them, and the amount burned. -/
def burnLoop (validatorHex : Bytes) (amount : UInt64) :
    UInt64 → List PendingUnstake → List PendingUnstake × UInt64
  | burned, [] => ([], burned)
  | burned, e :: rest =>
    if amount ≤ burned then (e :: rest, burned)
    else if e.validatorHex ≠ validatorHex then
      let r := burnLoop validatorHex amount burned rest
      (e :: r.1, r.2)
    else
      let need := amount - burned
      if e.amount ≤ need then
        let r := burnLoop validatorHex amount (burned + e.amount) rest
        ({ e with amount := 0 } :: r.1, r.2)
      else
        let r := burnLoop validatorHex amount (burned + need) rest
        ({ e with amount := e.amount - need } :: r.1, r.2)

/-- `BurnPending`: oldest entries first, then entries of amount zero are dropped. -/
def burnPending (uq : UnstakeQueue) (validatorHex : Bytes) (amount : UInt64) :
    UnstakeQueue × UInt64 :=
  let r := burnLoop validatorHex amount 0 uq.pending
  (⟨r.1.filter fun e => 0 < e.amount⟩, r.2)

/-- The order in which `Hash` digests the entries. -/
def entryLe (a b : PendingUnstake) : Bool :=
  ((compare a.matureSlot b.matureSlot).then
    ((compare a.validatorHex b.validatorHex).then (compare a.amount b.amount))).isLE

def hashData (uq : UnstakeQueue) : Bytes :=
  (uq.pending.insertionSort fun a b => entryLe a b).flatMap fun e =>
    hexDecode e.validatorHex ++ intToByteArr e.amount.toInt64 ++ intToByteArr e.matureSlot.toInt64

def hash (E : External) (uq : UnstakeQueue) : Bytes := E.sha256 uq.hashData

/-- The coins of all entries. -/
def queued (uq : UnstakeQueue) : Nat := (uq.pending.map fun e => e.amount.toNat).sum

/-- The coins of one validator's entries, without wrapping around. -/
def queuedBy (uq : UnstakeQueue) (v : Bytes) : Nat :=
  ((uq.pending.filter fun e => e.validatorHex = v).map fun e => e.amount.toNat).sum

theorem queued_enqueue (uq : UnstakeQueue) (v : Bytes) (amount matureSlot : UInt64) :
    (uq.enqueue v amount matureSlot).queued = uq.queued + amount.toNat := by
  simp [queued, enqueue]

theorem queuedBy_enqueue (uq : UnstakeQueue) (v v' : Bytes) (amount matureSlot : UInt64) :
    (uq.enqueue v amount matureSlot).queuedBy v' =
      uq.queuedBy v' + if v = v' then amount.toNat else 0 := by
  by_cases h : v = v' <;> simp [queuedBy, enqueue, h]

theorem sum_filter_le (p : PendingUnstake → Bool) (es : List PendingUnstake) :
    ((es.filter p).map fun e => e.amount.toNat).sum ≤ (es.map fun e => e.amount.toNat).sum :=
  (List.filter_sublist.map _).sum_le_sum fun _ _ => Nat.zero_le _

theorem queued_sweepMature_le (uq : UnstakeQueue) (slot : UInt64) :
    (uq.sweepMature slot).1.queued ≤ uq.queued :=
  sum_filter_le _ _

theorem queuedBy_le_queued (uq : UnstakeQueue) (v : Bytes) : uq.queuedBy v ≤ uq.queued :=
  sum_filter_le _ _

theorem foldl_pending (v : Bytes) (es : List PendingUnstake) (acc : UInt64) :
    es.foldl (fun total e => if e.validatorHex = v then total + e.amount else total) acc =
      acc + UInt64.ofNat ((es.filter fun e => e.validatorHex = v).map fun e => e.amount.toNat).sum := by
  induction es generalizing acc with
  | nil => simp
  | cons e es ih =>
    rw [List.foldl_cons, ih]
    by_cases h : e.validatorHex = v
    · simp [h, UInt64.ofNat_add, UInt64.add_assoc]
    · simp [h]

/-- The `uint64` total of a validator, in general. -/
theorem getPendingStake_eq (uq : UnstakeQueue) (v : Bytes) :
    uq.getPendingStake v = UInt64.ofNat (uq.queuedBy v) := by
  rw [getPendingStake, foldl_pending, UInt64.zero_add, queuedBy]

/-- It is exact while the queue fits in 64 bits. -/
theorem toNat_getPendingStake {uq : UnstakeQueue} {v : Bytes} (hFit : uq.queuedBy v < 2 ^ 64) :
    (uq.getPendingStake v).toNat = uq.queuedBy v := by
  rw [getPendingStake_eq, UInt64.toNat_ofNat', Nat.mod_eq_of_lt hFit]

/-- The loop leaves no entry with more than it had, and touches one validator only. -/
theorem burnLoop_sum_le (p : PendingUnstake → Bool)
    (hp : ∀ e : PendingUnstake, ∀ a, p { e with amount := a } = p e) (v : Bytes) (amount : UInt64)
    (burned : UInt64) (es : List PendingUnstake) :
    (((burnLoop v amount burned es).1.filter p).map fun e => e.amount.toNat).sum ≤
      ((es.filter p).map fun e => e.amount.toNat).sum := by
  induction es generalizing burned with
  | nil => simp [burnLoop]
  | cons e es ih =>
    unfold burnLoop
    split
    · exact Nat.le_refl _
    · split
      · have := ih burned
        dsimp only
        by_cases he : p e = true
        · simpa [List.filter_cons, he] using this
        · simpa [List.filter_cons, he] using this
      · dsimp only
        split
        · have := ih (burned + e.amount)
          by_cases he : p e = true
          · simp only [List.filter_cons, hp, he, if_true, List.map_cons, List.sum_cons,
              UInt64.toNat_zero]
            omega
          · simpa [List.filter_cons, hp, he] using this
        · rename_i hLt
          have := ih (burned + (amount - burned))
          have hSub : (e.amount - (amount - burned)).toNat ≤ e.amount.toNat := by
            have hNat : (amount - burned) ≤ e.amount := by
              simp only [UInt64.not_le] at hLt
              exact UInt64.le_of_lt hLt
            rw [UInt64.toNat_sub_of_le _ _ hNat]
            omega
          by_cases he : p e = true
          · simp only [List.filter_cons, hp, he, if_true, List.map_cons, List.sum_cons]
            omega
          · simpa [List.filter_cons, hp, he] using this

theorem queued_burnPending_le (uq : UnstakeQueue) (v : Bytes) (amount : UInt64) :
    (uq.burnPending v amount).1.queued ≤ uq.queued := by
  refine Nat.le_trans (sum_filter_le _ _) ?_
  simpa [queued] using burnLoop_sum_le (fun _ => true) (fun _ _ => rfl) v amount 0 uq.pending

/-- The loop touches the entries of one validator only. -/
theorem filter_burnLoop {v : Bytes} {p : PendingUnstake → Bool}
    (hp : ∀ e, e.validatorHex = v → p e = false) (amount burned : UInt64)
    (es : List PendingUnstake) : (burnLoop v amount burned es).1.filter p = es.filter p := by
  induction es generalizing burned with
  | nil => rfl
  | cons e es ih =>
    unfold burnLoop
    split
    · rfl
    · split
      · dsimp only
        rw [List.filter_cons, List.filter_cons, ih]
      · rename_i hOf
        -- whatever is left of the entry, the filter drops it
        have hDrop (left : UInt64) : p { e with amount := left } = false := hp _ (not_not.mp hOf)
        dsimp only
        split <;> simp [hDrop, ih]

theorem filter_burnLoop_of_ne {v v' : Bytes} (hNe : v ≠ v') (amount burned : UInt64)
    (es : List PendingUnstake) :
    ((burnLoop v amount burned es).1.filter fun e => e.validatorHex = v') =
      es.filter fun e => e.validatorHex = v' :=
  filter_burnLoop (fun _ hOwn => decide_eq_false (hOwn ▸ hNe)) amount burned es

/-- Entries without coins do not count. -/
theorem sum_filter_pos (es : List PendingUnstake) :
    ((es.filter fun e => 0 < e.amount).map fun e => e.amount.toNat).sum =
      (es.map fun e => e.amount.toNat).sum := by
  induction es with
  | nil => rfl
  | cons e es ih =>
    by_cases h : 0 < e.amount
    · simp [h, ih]
    · have hZero : e.amount = 0 := by simpa [UInt64.pos_iff_ne_zero] using h
      simp [hZero, ih]

/-- The coins of a validator after burning are those that the loop leaves. -/
theorem queuedBy_burnPending (uq : UnstakeQueue) (v v' : Bytes) (amount : UInt64) :
    (uq.burnPending v amount).1.queuedBy v' =
      (((burnLoop v amount 0 uq.pending).1.filter fun e => e.validatorHex = v').map
        fun e => e.amount.toNat).sum := by
  have hComm : ∀ es : List PendingUnstake,
      (es.filter fun e => 0 < e.amount).filter (fun e => e.validatorHex = v') =
        (es.filter fun e => e.validatorHex = v').filter fun e => 0 < e.amount := by
    intro es
    rw [List.filter_filter, List.filter_filter]
    exact List.filter_congr fun e _ => Bool.and_comm _ _
  unfold queuedBy burnPending
  dsimp only
  rw [hComm, sum_filter_pos]

/-- Burning touches the entries of one validator only. -/
theorem queuedBy_burnPending_of_ne {v v' : Bytes} (hNe : v ≠ v') (uq : UnstakeQueue)
    (amount : UInt64) : (uq.burnPending v amount).1.queuedBy v' = uq.queuedBy v' := by
  rw [queuedBy_burnPending, filter_burnLoop_of_ne hNe, queuedBy]

theorem getPendingStake_enqueue (uq : UnstakeQueue) (v v' : Bytes) (amount matureSlot : UInt64) :
    (uq.enqueue v amount matureSlot).getPendingStake v' =
      uq.getPendingStake v' + if v = v' then amount else 0 := by
  rw [getPendingStake_eq, getPendingStake_eq, queuedBy_enqueue, UInt64.ofNat_add]
  split <;> simp

/-- The loop burns the amount, but never more than is there. -/
theorem sum_burnLoop {v : Bytes} {amount burned : UInt64} (hLe : burned ≤ amount)
    (es : List PendingUnstake) :
    (((burnLoop v amount burned es).1.filter fun e => e.validatorHex = v).map
        fun e => e.amount.toNat).sum +
      min (amount.toNat - burned.toNat)
        ((es.filter fun e => e.validatorHex = v).map fun e => e.amount.toNat).sum =
      ((es.filter fun e => e.validatorHex = v).map fun e => e.amount.toNat).sum := by
  induction es generalizing burned with
  | nil => simp [burnLoop]
  | cons e es ih =>
    have hNat := UInt64.le_iff_toNat_le.mp hLe
    unfold burnLoop
    split
    · rename_i hDone
      have := UInt64.le_iff_toNat_le.mp hDone
      rw [Nat.sub_eq_zero_of_le this, Nat.zero_min, Nat.add_zero]
    · split
      · rename_i hOther
        simpa [hOther] using ih hLe
      · rename_i hOwn
        have hOf := not_not.mp hOwn
        have hNeed := UInt64.toNat_sub_of_le amount burned hLe
        dsimp only
        split
        · rename_i hAll
          have hAmount := UInt64.le_iff_toNat_le.mp hAll
          have hAdd : (burned + e.amount).toNat = burned.toNat + e.amount.toNat := by
            rw [UInt64.toNat_add]
            have := amount.toNat_lt
            exact Nat.mod_eq_of_lt (by omega)
          have hStill : burned + e.amount ≤ amount := UInt64.le_iff_toNat_le.mpr (by omega)
          have hRest := ih hStill
          simp only [hOf, decide_true, List.filter_cons_of_pos, List.map_cons, List.sum_cons,
            UInt64.toNat_zero]
          omega
        · rename_i hPart
          have hAmount : (amount - burned).toNat < e.amount.toNat := by
            simpa [UInt64.le_iff_toNat_le] using hPart
          have hAdd : (burned + (amount - burned)).toNat = amount.toNat := by
            rw [UInt64.toNat_add, hNeed]
            have := amount.toNat_lt
            rw [Nat.add_sub_cancel' hNat]
            exact Nat.mod_eq_of_lt this
          have hDone : burned + (amount - burned) ≤ amount :=
            UInt64.le_iff_toNat_le.mpr (by omega)
          have hRest := ih hDone
          have hSub := UInt64.toNat_sub_of_le e.amount (amount - burned)
            (UInt64.le_iff_toNat_le.mpr (by omega))
          simp only [hOf, decide_true, List.filter_cons_of_pos, List.map_cons, List.sum_cons]
          omega

/-- Burning takes the amount, but never more than is there. -/
theorem queuedBy_burnPending_self (uq : UnstakeQueue) (v : Bytes) (amount : UInt64) :
    (uq.burnPending v amount).1.queuedBy v + min amount.toNat (uq.queuedBy v) = uq.queuedBy v := by
  have h := sum_burnLoop (v := v) (UInt64.zero_le : 0 ≤ amount) uq.pending
  rw [UInt64.toNat_zero, Nat.sub_zero] at h
  rw [queuedBy_burnPending]
  exact h

/-- Burning the total of a validator leaves it nothing, also where the total has wrapped
around. -/
theorem getPendingStake_burnPending (uq : UnstakeQueue) (v v' : Bytes) :
    (uq.burnPending v (uq.getPendingStake v)).1.getPendingStake v' =
      if v = v' then 0 else uq.getPendingStake v' := by
  split
  · rename_i hv
    subst hv
    have h := uq.queuedBy_burnPending_self v (uq.getPendingStake v)
    rw [getPendingStake_eq, UInt64.toNat_ofNat', Nat.min_eq_left (Nat.mod_le _ _)] at h
    rw [getPendingStake_eq (uq.burnPending v _).1, ← UInt64.toNat_inj, UInt64.toNat_ofNat',
      getPendingStake_eq]
    have := Nat.div_add_mod (uq.queuedBy v) (2 ^ 64)
    have hMultiple : ((uq.burnPending v (UInt64.ofNat (uq.queuedBy v))).1).queuedBy v =
        2 ^ 64 * (uq.queuedBy v / 2 ^ 64) := by omega
    rw [hMultiple, Nat.mul_mod_right]
    rfl
  · rename_i hv
    rw [getPendingStake_eq, getPendingStake_eq uq v', queuedBy_burnPending_of_ne hv]

/-- Burning all coins of a validator takes its entries out and leaves the others in their order. -/
theorem pending_burnPending {uq : UnstakeQueue} {v : Bytes}
    (hPos : ∀ e ∈ uq.pending, 0 < e.amount) (hFit : uq.queuedBy v < 2 ^ 64) :
    (uq.burnPending v (uq.getPendingStake v)).1.pending =
      uq.pending.filter fun e => e.validatorHex ≠ v := by
  have hZero : (uq.burnPending v (uq.getPendingStake v)).1.queuedBy v = 0 := by
    have h := uq.queuedBy_burnPending_self v (uq.getPendingStake v)
    rw [toNat_getPendingStake hFit, Nat.min_self] at h
    omega
  -- what is left has coins, so nothing of the validator is left
  have hGone : ∀ e ∈ (uq.burnPending v (uq.getPendingStake v)).1.pending, e.validatorHex ≠ v := by
    intro e he hOwn
    have hCoins : 0 < e.amount := of_decide_eq_true (List.mem_filter.mp he).2
    have hIn : e.amount.toNat ∈ ((uq.burnPending v (uq.getPendingStake v)).1.pending.filter
        fun e => e.validatorHex = v).map fun e => e.amount.toNat :=
      List.mem_map.mpr ⟨e, List.mem_filter.mpr ⟨he, decide_eq_true hOwn⟩, rfl⟩
    have hNone := List.sum_eq_zero_iff.mp hZero _ hIn
    rw [UInt64.lt_iff_toNat_lt, hNone] at hCoins
    exact absurd hCoins (Nat.lt_irrefl 0)
  calc (uq.burnPending v (uq.getPendingStake v)).1.pending
      = (uq.burnPending v (uq.getPendingStake v)).1.pending.filter
          fun e => e.validatorHex ≠ v :=
        (List.filter_eq_self.mpr fun e he => decide_eq_true (hGone e he)).symm
    _ = (uq.pending.filter fun e => e.validatorHex ≠ v).filter fun e => 0 < e.amount := by
        unfold burnPending
        dsimp only
        rw [List.filter_comm, filter_burnLoop fun _ hOwn => decide_eq_false (not_not.mpr hOwn)]
    _ = uq.pending.filter fun e => e.validatorHex ≠ v :=
        List.filter_eq_self.mpr fun e he =>
          decide_eq_true (hPos e (List.mem_filter.mp he).1)

end UnstakeQueue

end Bdns.Blockchain
