import Bdns.Blockchain.Stake

/-!
# What BurnPending leaves

The loop of `BurnPending` empties the entries of a validator one after the other, cuts into the
first that has more coins than are still to be burned, and leaves all later ones alone
(`burnLoop_shape`). The entries that it has emptied are then dropped.
-/

namespace Bdns.Blockchain.UnstakeQueue

open Lib

/-- The coins of a validator in a list of entries. -/
def coinsOf (v : Bytes) (es : List PendingUnstake) : Nat :=
  ((es.filter fun e => e.validatorHex = v).map fun e => e.amount.toNat).sum

/-- An entry after the loop has burned all of the validator's coins in it. -/
def emptied (v : Bytes) (e : PendingUnstake) : PendingUnstake :=
  if e.validatorHex = v then { e with amount := 0 } else e

/-- The entries of a validator, oldest first. -/
def entriesOf (uq : UnstakeQueue) (v : Bytes) : List PendingUnstake :=
  uq.pending.filter fun e => e.validatorHex = v

section Coins

variable {v : Bytes} {e : PendingUnstake} {es : List PendingUnstake}

theorem coinsOf_cons_own (hOwn : e.validatorHex = v) :
    coinsOf v (e :: es) = e.amount.toNat + coinsOf v es := by
  simp [coinsOf, hOwn]

theorem coinsOf_cons_other (hOther : e.validatorHex ≠ v) : coinsOf v (e :: es) = coinsOf v es := by
  simp [coinsOf, hOther]

/-- Dropping the emptied entries leaves those of the others. -/
theorem filter_map_emptied (hPos : ∀ e ∈ es, 0 < e.amount) :
    (es.map (emptied v)).filter (fun e => 0 < e.amount) =
      es.filter fun e => e.validatorHex ≠ v := by
  induction es with
  | nil => rfl
  | cons e es ih =>
    have hRest := ih fun e' he' => hPos e' (List.mem_cons_of_mem _ he')
    have hFirst := hPos e List.mem_cons_self
    by_cases hOwn : e.validatorHex = v
    · simpa [emptied, hOwn] using hRest
    · simpa [emptied, hOwn, hFirst] using hRest

end Coins

/-! ## The loop -/

theorem burnLoop_of_le {v : Bytes} {amount burned : UInt64} (hDone : amount ≤ burned)
    (es : List PendingUnstake) : burnLoop v amount burned es = (es, burned) := by
  cases es with
  | nil => rfl
  | cons e es => rw [burnLoop, if_pos hDone]

/-- Where the loop ends: with all of the validator's coins burned, or inside one of its entries. -/
inductive BurnShape (v : Bytes) (need : Nat) (es : List PendingUnstake) :
    List PendingUnstake → Nat → Prop
  | all (hEnough : coinsOf v es ≤ need) : BurnShape v need es (es.map (emptied v)) (coinsOf v es)
  | within {before after : List PendingUnstake} {e : PendingUnstake} {left : UInt64}
      (hSplit : es = before ++ e :: after) (hOwn : e.validatorHex = v)
      (hBefore : coinsOf v before ≤ need) (hPositive : 0 < left)
      (hLeft : left.toNat + (need - coinsOf v before) = e.amount.toNat) :
      BurnShape v need es (before.map (emptied v) ++ { e with amount := left } :: after) need

theorem BurnShape.cons_other {v : Bytes} {need burned : Nat} {es es' : List PendingUnstake}
    {e : PendingUnstake} (hOther : e.validatorHex ≠ v) (h : BurnShape v need es es' burned) :
    BurnShape v need (e :: es) (e :: es') burned := by
  have hKept : emptied v e = e := if_neg hOther
  cases h with
  | all hEnough =>
    have hAll : BurnShape v need (e :: es) ((e :: es).map (emptied v)) (coinsOf v (e :: es)) :=
      .all (by rwa [coinsOf_cons_other hOther])
    rwa [List.map_cons, hKept, coinsOf_cons_other hOther] at hAll
  | @within before after part left hSplit hOwn hBefore hPositive hLeft =>
    rw [← @coinsOf_cons_other v e before hOther] at hBefore hLeft
    have hWithin := @BurnShape.within v need (e :: es) (e :: before) after part left
      (by rw [hSplit, List.cons_append]) hOwn hBefore hPositive hLeft
    rwa [List.map_cons, hKept, List.cons_append] at hWithin

theorem BurnShape.cons_own {v : Bytes} {need burned : Nat} {es es' : List PendingUnstake}
    {e : PendingUnstake} (hOwn : e.validatorHex = v) (hAll : e.amount.toNat ≤ need)
    (h : BurnShape v (need - e.amount.toNat) es es' burned) :
    BurnShape v need (e :: es) ({ e with amount := 0 } :: es') (e.amount.toNat + burned) := by
  have hEmptied : emptied v e = { e with amount := 0 } := if_pos hOwn
  cases h with
  | all hEnough =>
    have hShape : BurnShape v need (e :: es) ((e :: es).map (emptied v)) (coinsOf v (e :: es)) :=
      .all (by rw [coinsOf_cons_own hOwn]; omega)
    rwa [List.map_cons, hEmptied, coinsOf_cons_own hOwn] at hShape
  | @within before after part left hSplit hPart hBefore hPositive hLeft =>
    have hCoins := @coinsOf_cons_own v e before hOwn
    have hWithin := @BurnShape.within v need (e :: es) (e :: before) after part left
      (by rw [hSplit, List.cons_append]) hPart (by omega) hPositive (by omega)
    rw [List.map_cons, hEmptied, List.cons_append] at hWithin
    rwa [Nat.add_sub_cancel' hAll]

/-- With nothing left to burn the entries stay as they are. -/
theorem BurnShape.stop (v : Bytes) (es : List PendingUnstake) : BurnShape v 0 es es 0 := by
  induction es with
  | nil => exact .all (Nat.le_refl 0)
  | cons e es ih =>
    by_cases hOwn : e.validatorHex = v
    · by_cases hPos : 0 < e.amount
      · exact @within v 0 (e :: es) [] es e e.amount rfl hOwn (Nat.le_refl 0) hPos rfl
      · have hZero : e.amount = 0 := by simpa [UInt64.pos_iff_ne_zero] using hPos
        have hNone : e.amount.toNat = 0 := by rw [hZero]; rfl
        have hCons := @cons_own v 0 0 es es e hOwn (Nat.le_of_eq hNone) (by rwa [hNone])
        rwa [← hZero, hNone] at hCons
    · exact ih.cons_other hOwn

/-- What the loop leaves and what it has burned, for what is still to be burned. -/
theorem burnLoop_shape {v : Bytes} {amount burned : UInt64} (hLe : burned ≤ amount)
    (es : List PendingUnstake) :
    ∃ more, BurnShape v (amount.toNat - burned.toNat) es (burnLoop v amount burned es).1 more ∧
      (burnLoop v amount burned es).2.toNat = burned.toNat + more := by
  induction es generalizing burned with
  | nil => exact ⟨0, .all (Nat.zero_le _), rfl⟩
  | cons e es ih =>
    have hNat := UInt64.le_iff_toNat_le.mp hLe
    have hBound := amount.toNat_lt
    by_cases hDone : amount ≤ burned
    · rw [burnLoop_of_le hDone,
        Nat.sub_eq_zero_of_le (UInt64.le_iff_toNat_le.mp hDone)]
      exact ⟨0, .stop v _, rfl⟩
    rw [burnLoop, if_neg hDone]
    by_cases hOwn : e.validatorHex = v
    · have hNeed := UInt64.toNat_sub_of_le amount burned hLe
      rw [if_neg (not_not.mpr hOwn)]
      dsimp only
      by_cases hAll : e.amount ≤ amount - burned
      · have hAmount := UInt64.le_iff_toNat_le.mp hAll
        have hAdd : (burned + e.amount).toNat = burned.toNat + e.amount.toNat := by
          rw [UInt64.toNat_add]
          exact Nat.mod_eq_of_lt (by omega)
        obtain ⟨more, hShape, hBurned⟩ :=
          ih (UInt64.le_iff_toNat_le.mpr (by omega : (burned + e.amount).toNat ≤ amount.toNat))
        rw [if_pos hAll]
        refine ⟨e.amount.toNat + more, .cons_own hOwn (by omega) ?_, ?_⟩
        · rwa [hAdd, ← Nat.sub_sub] at hShape
        · dsimp only
          omega
      · have hAmount : (amount - burned).toNat < e.amount.toNat := by
          simpa [UInt64.le_iff_toNat_le] using hAll
        have hSum : burned + (amount - burned) = amount := by
          rw [← UInt64.toNat_inj, UInt64.toNat_add, hNeed, Nat.add_sub_cancel' hNat]
          exact Nat.mod_eq_of_lt hBound
        have hSub := UInt64.toNat_sub_of_le e.amount (amount - burned)
          (UInt64.le_iff_toNat_le.mpr hAmount.le)
        -- this entry covers the rest, and the loop stops at the next one
        rw [if_neg hAll, hSum, burnLoop_of_le (UInt64.le_refl amount)]
        refine ⟨amount.toNat - burned.toNat,
          @BurnShape.within v _ (e :: es) [] es e _ rfl hOwn (Nat.zero_le _) ?_ ?_, ?_⟩
        · rw [UInt64.lt_iff_toNat_lt, hSub]
          exact Nat.sub_pos_of_lt hAmount
        · change (e.amount - (amount - burned)).toNat + (amount.toNat - burned.toNat - 0) = _
          omega
        · dsimp only
          omega
    · obtain ⟨more, hShape, hBurned⟩ := ih hLe
      rw [if_pos hOwn]
      exact ⟨more, hShape.cons_other hOwn, hBurned⟩

/-! ## The queue afterwards -/

/-- The entries of the validator that are left: all but the oldest, the first of them perhaps with
fewer coins than before. -/
theorem entriesOf_burnPending {uq : UnstakeQueue} {v : Bytes}
    (hPos : ∀ e ∈ uq.pending, 0 < e.amount) (amount : UInt64) :
    ∃ consumed kept, uq.entriesOf v = consumed ++ kept ∧
      ((uq.burnPending v amount).1.entriesOf v = kept ∨
        ∃ e rest left, kept = e :: rest ∧ 0 < left ∧ left < e.amount ∧
          (uq.burnPending v amount).1.entriesOf v = { e with amount := left } :: rest) := by
  obtain ⟨more, hShape, -⟩ := burnLoop_shape (v := v) (UInt64.zero_le : 0 ≤ amount) uq.pending
  unfold entriesOf burnPending
  dsimp only
  generalize (burnLoop v amount 0 uq.pending).1 = es at hShape ⊢
  generalize uq.pending = pending at hPos hShape ⊢
  have hNone : ∀ before : List PendingUnstake,
      (before.filter fun e => e.validatorHex ≠ v).filter (fun e => e.validatorHex = v) = [] := by
    intro before
    rw [List.filter_filter]
    simp
  cases hShape with
  | all hEnough =>
    refine ⟨pending.filter fun e => e.validatorHex = v, [], (List.append_nil _).symm, .inl ?_⟩
    rw [filter_map_emptied hPos, hNone]
  | @within before after e left hSplit hOwn hBefore hPositive hLeft =>
    subst hSplit
    have hBeforePos : ∀ e ∈ before, 0 < e.amount := fun e he => hPos e (by simp [he])
    have hAfter : after.filter (fun e => 0 < e.amount) = after :=
      List.filter_eq_self.mpr fun e he => by simpa using hPos e (by simp [he])
    refine ⟨before.filter fun e => e.validatorHex = v,
      e :: after.filter fun e => e.validatorHex = v, by simp [hOwn], ?_⟩
    have hRest : ((before.map (emptied v) ++ { e with amount := left } :: after).filter
          fun e => 0 < e.amount).filter (fun e => e.validatorHex = v) =
        { e with amount := left } :: after.filter fun e => e.validatorHex = v := by
      rw [List.filter_append, filter_map_emptied hBeforePos, List.filter_append, hNone,
        List.nil_append, List.filter_cons_of_pos (by simpa using hPositive), hAfter,
        List.filter_cons_of_pos (by simpa using hOwn)]
    rw [hRest]
    -- the entry may have been reached with nothing left to burn
    by_cases hCut : left = e.amount
    · rw [hCut]
      exact .inl rfl
    · refine .inr ⟨e, _, left, rfl, hPositive, ?_, rfl⟩
      have hNe : left.toNat ≠ e.amount.toNat := fun hEq => hCut (UInt64.toNat_inj.mp hEq)
      rw [UInt64.lt_iff_toNat_lt]
      omega

/-- `BurnPending` burns exactly: the amount, or all that is there; the oldest entries first; and of
the others nothing. -/
theorem burnPending_exact {uq : UnstakeQueue} {v : Bytes}
    (hPos : ∀ e ∈ uq.pending, 0 < e.amount) (hFit : uq.queuedBy v < 2 ^ 64) (amount : UInt64) :
    (uq.burnPending v amount).2.toNat = min amount.toNat (uq.getPendingStake v).toNat ∧
      ((uq.burnPending v amount).1.getPendingStake v).toNat =
        (uq.getPendingStake v).toNat - min amount.toNat (uq.getPendingStake v).toNat ∧
      (∃ consumed kept, uq.entriesOf v = consumed ++ kept ∧
        ((uq.burnPending v amount).1.entriesOf v = kept ∨
          ∃ e rest left, kept = e :: rest ∧ 0 < left ∧ left < e.amount ∧
            (uq.burnPending v amount).1.entriesOf v = { e with amount := left } :: rest)) ∧
      (∀ e ∈ (uq.burnPending v amount).1.pending, 0 < e.amount) ∧
      ((uq.burnPending v amount).1.pending.filter fun e => e.validatorHex ≠ v) =
        uq.pending.filter fun e => e.validatorHex ≠ v := by
  have hTotal := toNat_getPendingStake hFit
  have hSelf := uq.queuedBy_burnPending_self v amount
  refine ⟨?_, ?_, entriesOf_burnPending hPos amount, ?_, ?_⟩
  · obtain ⟨more, hShape, hBurned⟩ :=
      burnLoop_shape (v := v) (UInt64.zero_le : 0 ≤ amount) uq.pending
    rw [UInt64.toNat_zero, Nat.zero_add] at hBurned
    rw [UInt64.toNat_zero, Nat.sub_zero] at hShape
    rw [hTotal, burnPending, hBurned]
    generalize (burnLoop v amount 0 uq.pending).1 = es at hShape
    cases hShape with
    | all hEnough => exact (Nat.min_eq_right hEnough).symm
    | @within before after e left hSplit hOwn hBefore hPositive hLeft =>
      have hCoins : uq.queuedBy v = coinsOf v before + e.amount.toNat + coinsOf v after := by
        unfold queuedBy
        rw [hSplit]
        simp [coinsOf, hOwn, Nat.add_assoc]
      exact (Nat.min_eq_left (by omega)).symm
  · rw [toNat_getPendingStake (by omega), hTotal]
    omega
  · intro e he
    exact of_decide_eq_true (List.mem_filter.mp he).2
  · unfold burnPending
    dsimp only
    rw [List.filter_filter]
    have hComm : ∀ es : List PendingUnstake,
        (es.filter fun e => decide (e.validatorHex ≠ v) && decide (0 < e.amount)) =
          (es.filter fun e => e.validatorHex ≠ v).filter fun e => 0 < e.amount := by
      intro es
      rw [List.filter_filter]
      exact List.filter_congr fun e _ => Bool.and_comm _ _
    rw [hComm, filter_burnLoop fun e hOwn => decide_eq_false (not_not.mpr hOwn)]
    refine List.filter_eq_self.mpr fun e he => ?_
    exact decide_eq_true (hPos e (List.mem_filter.mp he).1)

/-- Two entries of a validator with one of another between them. -/
def burnSample : UnstakeQueue :=
  ⟨[⟨utf8 "v", 5, 10⟩, ⟨utf8 "w", 7, 11⟩, ⟨utf8 "v", 5, 12⟩]⟩

theorem burnPending_exact_sample :
    (burnSample.burnPending (utf8 "v") 7).2.toNat = 7 ∧
      (burnSample.burnPending (utf8 "v") 7).1.pending =
        [⟨utf8 "w", 7, 11⟩, ⟨utf8 "v", 3, 12⟩] := by
  obtain ⟨hBurned, -⟩ := @burnPending_exact burnSample (utf8 "v") (by decide +kernel)
    (by decide +kernel) 7
  exact ⟨hBurned.trans (by decide +kernel), by decide +kernel⟩

end Bdns.Blockchain.UnstakeQueue
