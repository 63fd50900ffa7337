import Bdns.Lib.Outcome

/-!
# The slot loop

The ticks of `CreateBlockIfLeader` and the calls they make for the distributed randomness. The loop
handles commitments and reveals only in a slot in which the epoch changes. It changes in the first
slot of an epoch, and the reveal waits for the second one: at no tick are both conditions met.
-/

namespace Bdns.Network

open Lib

/-- The calls of the loop that concern epochs. -/
inductive SlotCall
  | getSlotLeader (epoch : Int64)
  | broadcastCommitment (epoch : Int64)
  | broadcastReveal (epoch : Int64)
  | pruneDRGEpochState (epoch : Int64)
  deriving DecidableEq

/-- The variables of the loop. -/
structure SlotLoop where
  slot : Int64
  epoch : Int64

namespace SlotLoop

variable (slotsPerEpoch : Int64)

def start : SlotLoop where
  slot := slotsPerEpoch - 1
  epoch := 0

/-- One tick, with the calls it makes. -/
def tick (l : SlotLoop) : SlotLoop × List SlotCall :=
  let slot := l.slot + 1
  let newEpoch := slot / slotsPerEpoch
  if newEpoch ≠ l.epoch then
    ({ slot, epoch := newEpoch },
      [.getSlotLeader newEpoch] ++
      (if slot % slotsPerEpoch = 0 then [.broadcastCommitment (newEpoch + 1)] else []) ++
      (if slot % slotsPerEpoch = 1 then [.broadcastReveal newEpoch, .pruneDRGEpochState newEpoch]
        else []))
  else ({ l with slot }, [])

/-- The loop after a number of ticks, with all calls. Before the first tick the node commits to its
randomness for epoch 1. -/
def run : Nat → SlotLoop × List SlotCall
  | 0 => (start slotsPerEpoch, [.broadcastCommitment 1])
  | ticks + 1 =>
    let (l, calls) := run ticks
    let (l, new) := l.tick slotsPerEpoch
    (l, calls ++ new)

/-- The slot at index 1 of an epoch has been passed. -/
def PassedReveal (ticks : Nat) (epoch : Int64) : Prop :=
  ∃ i < ticks, (run slotsPerEpoch (i + 1)).1.slot / slotsPerEpoch = epoch ∧
    (run slotsPerEpoch (i + 1)).1.slot % slotsPerEpoch = 1

/-- Each epoch whose slot at index 1 has been passed has been revealed once and pruned. -/
def RevealsOnSchedule (ticks : Nat) : Prop :=
  ∀ epoch, 1 ≤ epoch → PassedReveal slotsPerEpoch ticks epoch →
    (run slotsPerEpoch ticks).2.count (.broadcastReveal epoch) = 1 ∧
      .pruneDRGEpochState epoch ∈ (run slotsPerEpoch ticks).2

/-! ## Slots and epochs -/

variable {slotsPerEpoch}

/-- The second slot of an epoch is in the same epoch as the slot before it. -/
theorem epoch_of_second_slot {slot : Int64} (hTwo : 2 ≤ slotsPerEpoch)
    (hSecond : (slot + 1) % slotsPerEpoch = 1) :
    (slot + 1) / slotsPerEpoch = slot / slotsPerEpoch := by
  have hTwo : 2 ≤ slotsPerEpoch.toInt := Int64.le_iff_toInt_le.mp hTwo
  have hMod : (slot + 1).toInt.tmod slotsPerEpoch.toInt = 1 := by
    rw [← Int64.toInt_mod, hSecond]
    rfl
  -- a remainder has the sign of the dividend, so the sum did not wrap around
  have hPos : 0 < (slot + 1).toInt := by
    by_contra hNeg
    have hMinus : 0 ≤ -(slot + 1).toInt := by omega
    have hSign := Int.tmod_nonneg slotsPerEpoch.toInt hMinus
    rw [Int.neg_tmod, hMod] at hSign
    omega
  have hSum : slot.toInt = (slot + 1).toInt - 1 := by
    have hAdd := Int64.toInt_add slot 1
    have hOne : (1 : Int64).toInt = 1 := rfl
    have hLt := Int64.toInt_lt slot
    have hGe := Int64.le_toInt slot
    rw [hOne] at hAdd
    by_cases hMax : slot.toInt + 1 < 2 ^ 63
    · rw [Int.bmod_eq_of_le (by omega) (by omega)] at hAdd
      omega
    · have hEq : slot.toInt = 2 ^ 63 - 1 := by omega
      rw [hEq] at hAdd
      rw [hAdd] at hPos
      exact absurd hPos (by decide)
  have hDiv := Int.mul_tdiv_add_tmod (slot + 1).toInt slotsPerEpoch.toInt
  rw [hMod] at hDiv
  apply Int64.toInt_inj.mp
  rw [Int64.toInt_div, Int64.toInt_div, hSum, ← hDiv, Int.add_sub_cancel,
    Int.mul_tdiv_cancel_left _ (by omega), hDiv]

/-- What the loop maintains: its epoch is the epoch of its slot. -/
def InEpoch (slotsPerEpoch : Int64) (l : SlotLoop) : Prop := l.epoch = l.slot / slotsPerEpoch

theorem slot_tick (l : SlotLoop) : (l.tick slotsPerEpoch).1.slot = l.slot + 1 := by
  unfold tick
  dsimp only
  split <;> rfl

theorem inEpoch_tick (l : SlotLoop) : InEpoch slotsPerEpoch (l.tick slotsPerEpoch).1 := by
  unfold InEpoch tick
  dsimp only
  split
  · rfl
  · rename_i hSame
    exact (not_not.mp hSame).symm

/-- A tick of a loop in its epoch calls for no reveal and prunes nothing. -/
theorem not_reveal_of_mem_tick {l : SlotLoop} (hTwo : 2 ≤ slotsPerEpoch)
    (hEpoch : InEpoch slotsPerEpoch l) {call : SlotCall}
    (hCall : call ∈ (l.tick slotsPerEpoch).2) (epoch : Int64) :
    call ≠ .broadcastReveal epoch ∧ call ≠ .pruneDRGEpochState epoch := by
  unfold tick at hCall
  dsimp only at hCall
  split at hCall
  · rename_i hNew
    have hFirst : ¬ (l.slot + 1) % slotsPerEpoch = 1 := by
      intro hSecond
      rw [epoch_of_second_slot hTwo hSecond] at hNew
      exact hNew hEpoch.symm
    rw [if_neg hFirst, List.append_nil] at hCall
    rcases List.mem_append.mp hCall with hCall | hCall
    · rw [List.mem_singleton.mp hCall]
      exact ⟨SlotCall.noConfusion, SlotCall.noConfusion⟩
    · split at hCall
      · rw [List.mem_singleton.mp hCall]
        exact ⟨SlotCall.noConfusion, SlotCall.noConfusion⟩
      · cases hCall
  · cases hCall

/-! ## Runs -/

theorem inEpoch_run (hTwo : 2 ≤ slotsPerEpoch) (ticks : Nat) :
    InEpoch slotsPerEpoch (run slotsPerEpoch ticks).1 := by
  cases ticks with
  | succ ticks => exact inEpoch_tick _
  | zero =>
    have hTwo : 2 ≤ slotsPerEpoch.toInt := Int64.le_iff_toInt_le.mp hTwo
    have hSub : (slotsPerEpoch - 1).toInt = slotsPerEpoch.toInt - 1 := by
      have hLt := Int64.toInt_lt slotsPerEpoch
      rw [Int64.toInt_sub]
      exact Int.bmod_eq_of_le (by simp; omega) (by simp; omega)
    apply Int64.toInt_inj.mp
    rw [run, start, Int64.toInt_div, hSub, Int.tdiv_eq_zero_of_lt (by omega) (by omega)]
    rfl

/-- No run reveals or prunes. -/
theorem not_reveal_of_mem_run (hTwo : 2 ≤ slotsPerEpoch) (ticks : Nat) {call : SlotCall}
    (hCall : call ∈ (run slotsPerEpoch ticks).2) (epoch : Int64) :
    call ≠ .broadcastReveal epoch ∧ call ≠ .pruneDRGEpochState epoch := by
  induction ticks with
  | zero =>
    rw [List.mem_singleton.mp hCall]
    exact ⟨SlotCall.noConfusion, SlotCall.noConfusion⟩
  | succ ticks ih =>
    rcases List.mem_append.mp hCall with hCall | hCall
    · exact ih hCall
    · exact not_reveal_of_mem_tick hTwo (inEpoch_run hTwo ticks) hCall epoch

theorem slot_run (ticks : Nat) :
    (run slotsPerEpoch ticks).1.slot = slotsPerEpoch - 1 + Int64.ofNat ticks := by
  induction ticks with
  | zero => simp [run, start]
  | succ ticks ih =>
    have hRun : (run slotsPerEpoch (ticks + 1)).1 =
        ((run slotsPerEpoch ticks).1.tick slotsPerEpoch).1 := rfl
    rw [hRun, slot_tick, ih, Int64.ofNat_add, Int64.add_assoc]
    rfl

/-- The slot after the first one of epoch 1 is its second one, if it has a number. -/
theorem passedReveal_second (hTwo : 2 ≤ slotsPerEpoch) (hMax : slotsPerEpoch ≠ Int64.maxValue)
    {ticks : Nat} (hTicks : 2 ≤ ticks) : PassedReveal slotsPerEpoch ticks 1 := by
  have hTwo : 2 ≤ slotsPerEpoch.toInt := Int64.le_iff_toInt_le.mp hTwo
  have hLess : slotsPerEpoch.toInt < 2 ^ 63 - 1 := by
    have hLt := Int64.toInt_lt slotsPerEpoch
    have hNe : slotsPerEpoch.toInt ≠ Int64.maxValue.toInt := fun h => hMax (Int64.toInt_inj.mp h)
    have hValue : Int64.maxValue.toInt = 2 ^ 63 - 1 := by decide
    omega
  have hSlot : (run slotsPerEpoch 2).1.slot.toInt = slotsPerEpoch.toInt + 1 := by
    have hSum : slotsPerEpoch - 1 + Int64.ofNat 2 = slotsPerEpoch + 1 := by
      rw [Int64.sub_eq_add_neg, Int64.add_assoc]
      rfl
    rw [slot_run, hSum, Int64.toInt_add]
    exact Int.bmod_eq_of_le (by simp; omega) (by simp; omega)
  obtain ⟨hDiv, hMod⟩ : (slotsPerEpoch.toInt + 1) / slotsPerEpoch.toInt = 1 ∧
      (slotsPerEpoch.toInt + 1) % slotsPerEpoch.toInt = 1 :=
    (Int.ediv_emod_unique (by omega)).mpr ⟨by ring, by omega, by omega⟩
  refine ⟨1, hTicks, ?_, ?_⟩
  · apply Int64.toInt_inj.mp
    rw [Int64.toInt_div, hSlot, Int.tdiv_eq_ediv_of_nonneg (by omega), hDiv]
    rfl
  · apply Int64.toInt_inj.mp
    rw [Int64.toInt_mod, hSlot, Int.tmod_eq_emod_of_nonneg (by omega), hMod]
    rfl

/-- With the longest epoch no slot is the second one of an epoch but the first. -/
theorem not_second_of_maxValue {slot epoch : Int64} (hEpoch : 1 ≤ epoch)
    (hDiv : slot / Int64.maxValue = epoch) : ¬ slot % Int64.maxValue = 1 := by
  intro hSecond
  have hValue : Int64.maxValue.toInt = 2 ^ 63 - 1 := by decide
  have hMod : slot.toInt.tmod Int64.maxValue.toInt = 1 := by
    rw [← Int64.toInt_mod, hSecond]
    rfl
  have hSplit := Int.mul_tdiv_add_tmod slot.toInt Int64.maxValue.toInt
  have hEpoch : 1 ≤ epoch.toInt := Int64.le_iff_toInt_le.mp hEpoch
  have hLt := Int64.toInt_lt slot
  have hGe := Int64.le_toInt slot
  rw [hMod, hValue] at hSplit
  rw [← hDiv, Int64.toInt_div, hValue] at hEpoch
  rw [Int.bmod_eq_of_le (by omega) (by omega)] at hEpoch
  omega

/-- So the schedule is kept exactly as long as there is nothing to reveal: up to the first tick, or
where the second slot of epoch 1 has no number. -/
theorem revealsOnSchedule_iff (hTwo : 2 ≤ slotsPerEpoch) (ticks : Nat) :
    RevealsOnSchedule slotsPerEpoch ticks ↔ ticks ≤ 1 ∨ slotsPerEpoch = Int64.maxValue := by
  constructor
  · intro hSchedule
    by_contra hNot
    obtain ⟨hTicks, hMax⟩ := not_or.mp hNot
    have hPassed := passedReveal_second hTwo hMax (Nat.not_le.mp hTicks)
    have hOnce := (hSchedule 1 (by decide) hPassed).1
    have hMem : SlotCall.broadcastReveal 1 ∈ (run slotsPerEpoch ticks).2 :=
      List.count_pos_iff.mp (hOnce ▸ Nat.one_pos)
    exact (not_reveal_of_mem_run hTwo ticks hMem 1).1 rfl
  · rintro hQuiet epoch hEpoch ⟨i, hi, hDiv, hSecond⟩
    exfalso
    rcases hQuiet with hTicks | rfl
    · obtain rfl : i = 0 := by omega
      have hFirst : (run slotsPerEpoch 1).1.slot = slotsPerEpoch := by
        rw [slot_run]
        exact Int64.sub_add_cancel _ _
      have hZero : (slotsPerEpoch % slotsPerEpoch).toInt = 0 := by
        rw [Int64.toInt_mod, Int.tmod_self]
      rw [hFirst] at hSecond
      rw [hSecond] at hZero
      exact absurd hZero (by decide)
    · exact not_second_of_maxValue hEpoch hDiv hSecond

/-- One tick into epochs of two slots, nothing is late. -/
theorem revealsOnSchedule_iff_first : RevealsOnSchedule 2 1 :=
  (revealsOnSchedule_iff (by decide) 1).mpr (.inl le_rfl)

/-- After the second tick the reveal of epoch 1 is due, and it has not been called. -/
theorem reveal_is_never_called :
    PassedReveal 2 2 1 ∧ (run 2 2).2.count (.broadcastReveal 1) = 0 ∧
      ¬ RevealsOnSchedule 2 2 := by
  have hPassed : PassedReveal 2 2 1 := ⟨1, by decide, by decide, by decide⟩
  have hNone : (run 2 2).2.count (.broadcastReveal 1) = 0 := by decide
  refine ⟨hPassed, hNone, fun hSchedule => ?_⟩
  have hOnce := (hSchedule 1 (by decide) hPassed).1
  rw [hNone] at hOnce
  cases hOnce

end SlotLoop

end Bdns.Network
