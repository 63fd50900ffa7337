import Bdns.Blockchain.Coins
import Bdns.Network.Chain

/-!
# What becomes of unstaked coins

An UNSTAKE moves coins from the stake map to a queue, where they stay for `unstakeDelaySlots`
slots. The first block after that sweeps the entry out of the queue. Leader and validator call
`SweepMature` for its effect on the queue and drop the list of matured entries that it returns,
so the last leg of the way, the credit to the account, is missing.
-/

namespace Bdns.Safety

open Lib Blockchain Network

/-- The coins of a key that `SweepMature` returns in a slot. -/
def due (uq : UnstakeQueue) (slot : Int64) (pubKeyHex : Bytes) : Nat :=
  UnstakeQueue.queuedBy ⟨(uq.sweepMature slot.toUInt64).2⟩ pubKeyHex

/-- A block credits what matures in its slot: every account ends with what the transactions of
the block leave it, and the coins that are due. -/
def PaysOut (env : Env) (order : JournalOrder) (s : ChainState) (b : Block) (staged : Staged) :
    Prop :=
  ∀ ledger st, ledgerPass b.transactions s.ledger = .ok ledger →
    domainPass env order b.slotNumber b.index b.transactions (domainStart s b ledger) = .ok st →
    ∀ k, (staged.ledger.getBalance k).toNat =
      (st.ledger.getBalance k).toNat + due s.stakes.unstakeQueue b.slotNumber k

/-! ## The queue -/

/-- All entries of a queue mature after a slot. -/
def MaturesAfter (slot : Int64) (uq : UnstakeQueue) : Prop :=
  ∀ e ∈ uq.pending, ¬ e.matureSlot ≤ slot.toUInt64

theorem maturesAfter_openStakes (s : StakeState) (slot : Int64) :
    MaturesAfter slot (openStakes s slot).unstakeQueue := by
  intro e he
  simpa using (List.mem_filter.mp he).2

theorem matureSlot_mem_burnLoop {v : Bytes} {amount burned : UInt64} {es : List PendingUnstake}
    {e : PendingUnstake} (he : e ∈ (UnstakeQueue.burnLoop v amount burned es).1) :
    ∃ e' ∈ es, e.matureSlot = e'.matureSlot := by
  induction es generalizing burned with
  | nil => simp [UnstakeQueue.burnLoop] at he
  | cons e₁ es ih =>
    -- every branch keeps the mature slot of the first entry and goes on with the rest
    have hSplit : ∀ burned' e', e'.matureSlot = e₁.matureSlot →
        e ∈ e' :: (UnstakeQueue.burnLoop v amount burned' es).1 →
        ∃ e' ∈ e₁ :: es, e.matureSlot = e'.matureSlot := by
      intro burned' e' hSame hMem
      rcases List.mem_cons.mp hMem with rfl | hMem
      · exact ⟨e₁, List.mem_cons_self, hSame⟩
      · obtain ⟨e'', hMem'', hEq⟩ := ih hMem
        exact ⟨e'', List.mem_cons_of_mem _ hMem'', hEq⟩
    unfold UnstakeQueue.burnLoop at he
    split at he
    · exact ⟨e, he, rfl⟩
    · split at he
      · exact hSplit _ _ rfl he
      · dsimp only at he
        split at he
        · exact hSplit _ { e₁ with amount := 0 } rfl he
        · exact hSplit _ { e₁ with amount := e₁.amount - (amount - burned) } rfl he

theorem maturesAfter_slash {slot : Int64} {s : StakeState} (offenderHex : Bytes)
    (h : MaturesAfter slot s.unstakeQueue) :
    MaturesAfter slot (slash offenderHex s).unstakeQueue := by
  unfold slash
  dsimp only
  split
  · exact h
  · intro e he
    obtain ⟨e', hMem, hSame⟩ := matureSlot_mem_burnLoop (List.mem_filter.mp he).1
    rw [hSame]
    exact h e' hMem

/-- In a slot whose delay does not wrap around, no transaction queues coins that are due. -/
theorem maturesAfter_stakePass {E : External} {slot : Int64} {txs : List Transaction}
    {s s' : StakeState} (hSlot : slot.toUInt64.toNat + unstakeDelaySlots.toNat < 2 ^ 64)
    (h : MaturesAfter slot s.unstakeQueue) (hPass : stakePass E slot txs s = .ok s') :
    MaturesAfter slot s'.unstakeQueue := by
  refine foldlM_invariant (fun t : StakeState => MaturesAfter slot t.unstakeQueue) ?_ h hPass
  intro tx _ t t' ht hApply
  unfold applyStakeMutations at hApply
  split at hApply
  · obtain rfl := pure_eq_ok.mp hApply
    exact ht
  · dsimp only at hApply
    split at hApply
    · obtain rfl := pure_eq_ok.mp hApply
      exact ht
    · obtain rfl := pure_eq_ok.mp hApply
      intro e he
      rcases List.mem_append.mp he with he | he
      · exact ht e he
      · obtain rfl := List.mem_singleton.mp he
        rw [UInt64.le_iff_toNat_le, UInt64.toNat_add, Nat.mod_eq_of_lt hSlot]
        have : unstakeDelaySlots.toNat = 1000 := rfl
        omega
    · unfold applyEquivocationProof at hApply
      split at hApply
      · obtain rfl := pure_eq_ok.mp hApply
        exact ht
      · obtain ⟨blockA, -, hApply⟩ := bind_eq_ok.mp hApply
        dsimp only at hApply
        split at hApply
        · obtain rfl := pure_eq_ok.mp hApply
          exact ht
        · obtain rfl := pure_eq_ok.mp hApply
          exact maturesAfter_slash _ ht
    · obtain rfl := pure_eq_ok.mp hApply
      exact ht

/-! ## The block in which coins mature -/

section Block

variable {env : Env} {order : JournalOrder} {s : ChainState} {newBlock oldBlock : Block}
  {slotLeaderKey : Bytes} {staged : Staged}

/-- What is due in a block has left the queue for good. -/
theorem due_eq_zero_after
    (hAccepted : validateBlock env order s newBlock oldBlock slotLeaderKey = .ok staged)
    (hSlot : newBlock.slotNumber.toUInt64.toNat + unstakeDelaySlots.toNat < 2 ^ 64) (k : Bytes) :
    due staged.stakes.unstakeQueue newBlock.slotNumber k = 0 := by
  obtain ⟨-, -, -, hStakes⟩ := validateBlock_eq_ok hAccepted
  have hLeft := maturesAfter_stakePass hSlot (maturesAfter_openStakes _ _) hStakes
  have hNone : (staged.stakes.unstakeQueue.sweepMature newBlock.slotNumber.toUInt64).2 = [] :=
    List.filter_eq_nil_iff.mpr fun e he => by simpa using hLeft e he
  rw [due, hNone]
  rfl

end Block

/-! ## A stake that is given up -/

/-- A registry locks 500 coins and takes them back; a later block is sealed when they mature. -/
def unbondingLog : List (Int64 × List Transaction) :=
  [(1, [StandIn.registryTx { tid := 1, type := .stake, stakeAmount := 500 }]),
    (2, [StandIn.registryTx { tid := 2, type := .unstake, nonce := 1, stakeAmount := 500 }]),
    (1002, [StandIn.commitTx 3 2 [1]])]

/-- State and tip before and after the `n`-th block of the log. -/
def unbondingTip (n : Nat) : ChainState × Block := StandIn.afterLog (unbondingLog.take n)

end Bdns.Safety
