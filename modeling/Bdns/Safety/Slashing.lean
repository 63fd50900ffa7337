import Bdns.Blockchain.Acceptance
import Bdns.Blockchain.Coins
import Bdns.Network.Node

/-!
# Who is slashed

An EQUIVOCATION_PROOF carries two whole blocks. The gate on it compares their index, their
leader and the hashes stored in them, and verifies both signatures; the slash then falls on
the leader of the first. A signature covers `SerializeForSigning` and not the stored hash, so
two copies of one block with different stored hashes pass as well. Where the two payloads do
differ, only a key that signed both is slashed.
-/

namespace Bdns.Safety

open Lib Blockchain Network

/-! ## Proofs and stakes -/

/-- A validator keeps its stake and its queued coins from one state to the next. -/
structure KeepsCoins (validatorHex : Bytes) (s s' : StakeState) : Prop where
  stake : s'.stakeMap.getStake validatorHex = s.stakeMap.getStake validatorHex
  queue : s'.unstakeQueue.queuedBy validatorHex = s.unstakeQueue.queuedBy validatorHex

/-- A proof against one validator leaves the others alone. -/
theorem keepsCoins_of_applyEquivocationProof {E : External} {tx : Transaction} {s s' : StakeState}
    {blockA : Block} (hDecode : deserializeBlock E tx.equivBlockA = .ok blockA)
    {validatorHex : Bytes} (hNe : hexEncode blockA.slotLeader ≠ validatorHex)
    (h : applyEquivocationProof E tx s = .ok s') : KeepsCoins validatorHex s s' := by
  unfold applyEquivocationProof at h
  split at h
  · obtain rfl := pure_eq_ok.mp h
    exact ⟨rfl, rfl⟩
  · rw [hDecode] at h
    obtain ⟨b, hb, h⟩ := bind_eq_ok.mp h
    obtain rfl := Except.ok.inj hb
    dsimp only at h
    split at h
    · obtain rfl := pure_eq_ok.mp h
      exact ⟨rfl, rfl⟩
    · obtain rfl := pure_eq_ok.mp h
      exact ⟨getStake_slash_of_ne s hNe, queuedBy_slash_of_ne s hNe⟩

/-! ## A slash takes everything, once -/

section Total

variable {E : External} {o : Bytes} {s s' : StakeState} {tx : Transaction} {blockA : Block}

/-- Where stake and queue of the offender fit in 64 bits, its entries leave the queue, and the
others keep their order. -/
theorem pending_slash (hPos : ∀ e ∈ s.unstakeQueue.pending, 0 < e.amount)
    (hFit : (s.stakeMap.getStake o).toNat + s.unstakeQueue.queuedBy o < 2 ^ 64) :
    (slash o s).unstakeQueue.pending =
      s.unstakeQueue.pending.filter fun e => e.validatorHex ≠ o := by
  have hQueue : (s.unstakeQueue.getPendingStake o).toNat = s.unstakeQueue.queuedBy o :=
    UnstakeQueue.toNat_getPendingStake (by omega)
  unfold slash
  simp only [computeSlashAmount_slashingPercent]
  split
  · rename_i hLe
    -- the queue of the offender is worth nothing, so it is empty
    rw [UInt64.le_iff_toNat_le, UInt64.toNat_add, hQueue, Nat.mod_eq_of_lt hFit] at hLe
    have hZero : s.unstakeQueue.queuedBy o = 0 := by omega
    symm
    rw [List.filter_eq_self]
    intro e he
    refine decide_eq_true ?_
    intro hOwn
    have hIn : e.amount.toNat ∈ (s.unstakeQueue.pending.filter
        fun e => e.validatorHex = o).map fun e => e.amount.toNat :=
      List.mem_map.mpr ⟨e, List.mem_filter.mpr ⟨he, decide_eq_true hOwn⟩, rfl⟩
    have hCoins := hPos e he
    rw [UInt64.lt_iff_toNat_lt, List.sum_eq_zero_iff.mp hZero _ hIn] at hCoins
    exact Nat.lt_irrefl 0 hCoins
  · have hExcess : s.stakeMap.getStake o + s.unstakeQueue.getPendingStake o -
        s.stakeMap.getStake o = s.unstakeQueue.getPendingStake o := by grind
    rw [hExcess]
    exact UnstakeQueue.pending_burnPending hPos (by omega)

/-- A transaction that is a proof against the leader of a block, submitted under a key. -/
structure Accuses (E : External) (tx : Transaction) (blockA : Block) : Prop where
  type : tx.type = .equivocationProof
  key : tx.ownerKey ≠ []
  evidence : tx.equivBlockA ≠ []
  names : deserializeBlock E tx.equivBlockA = .ok blockA

/-- A proof slashes unless the offence is recorded. -/
theorem applyStakeMutations_of_accuses (h : Accuses E tx blockA) (slot : Int64) (s : StakeState) :
    applyStakeMutations E slot tx s =
      if s.slashedEvidence (Validation.offenseKey blockA) = true then .ok s
      else .ok { slash (hexEncode blockA.slotLeader) s with
        slashedEvidence := Function.update s.slashedEvidence (Validation.offenseKey blockA)
          true } := by
  unfold applyStakeMutations
  rw [if_neg (mt List.length_eq_zero_iff.mp h.key), h.type]
  dsimp only
  unfold applyEquivocationProof
  rw [if_neg (mt List.length_eq_zero_iff.mp h.evidence), h.names]
  by_cases hRecorded : s.slashedEvidence (Validation.offenseKey blockA) = true
  · rw [if_pos hRecorded]
    exact if_pos hRecorded
  · rw [if_neg hRecorded]
    refine (if_neg hRecorded).trans ?_
    rw [slashedEvidence_slash]
    rfl

/-- Records of offences stay. -/
theorem slashedEvidence_of_applyStakeMutations {slot : Int64} {key : Bytes}
    (h : applyStakeMutations E slot tx s = .ok s') (hKey : s.slashedEvidence key = true) :
    s'.slashedEvidence key = true := by
  unfold applyStakeMutations at h
  split at h
  · obtain rfl := pure_eq_ok.mp h
    exact hKey
  · dsimp only at h
    split at h
    · obtain rfl := pure_eq_ok.mp h
      exact hKey
    · obtain rfl := pure_eq_ok.mp h
      exact hKey
    · unfold applyEquivocationProof at h
      split at h
      · obtain rfl := pure_eq_ok.mp h
        exact hKey
      · obtain ⟨b, -, h⟩ := bind_eq_ok.mp h
        dsimp only at h
        split at h
        · obtain rfl := pure_eq_ok.mp h
          exact hKey
        · obtain rfl := pure_eq_ok.mp h
          dsimp only
          rw [Function.update_apply, slashedEvidence_slash]
          split
          · rfl
          · exact hKey
    · obtain rfl := pure_eq_ok.mp h
      exact hKey

/-- The first proof of an offence takes stake and queue of the offender, touches nobody else and is
recorded; after any further transactions, a proof of the same offence changes nothing. -/
theorem slash_total_once (h : Accuses E tx blockA)
    (hPos : ∀ e ∈ s.unstakeQueue.pending, 0 < e.amount)
    (hFit : (s.stakeMap.getStake (hexEncode blockA.slotLeader)).toNat +
      s.unstakeQueue.queuedBy (hexEncode blockA.slotLeader) < 2 ^ 64)
    (hFirst : s.slashedEvidence (Validation.offenseKey blockA) = false) (slot : Int64) :
    ∃ s', applyStakeMutations E slot tx s = .ok s' ∧
      s'.stakeMap.getStake (hexEncode blockA.slotLeader) = 0 ∧
      s'.unstakeQueue.getPendingStake (hexEncode blockA.slotLeader) = 0 ∧
      (∀ v, v ≠ hexEncode blockA.slotLeader → s'.stakeMap.getStake v = s.stakeMap.getStake v) ∧
      (s'.unstakeQueue.pending =
        s.unstakeQueue.pending.filter fun e => e.validatorHex ≠ hexEncode blockA.slotLeader) ∧
      s'.slashedEvidence = Function.update s.slashedEvidence (Validation.offenseKey blockA) true ∧
      ∀ (later : List (Int64 × Transaction)) (s'' : StakeState) (tx' : Transaction)
        (blockA' : Block) (slot' : Int64),
        later.foldlM (fun s e => applyStakeMutations E e.1 e.2 s) s' = .ok s'' →
        Accuses E tx' blockA' → blockA'.index = blockA.index →
        blockA'.slotLeader = blockA.slotLeader →
        applyStakeMutations E slot' tx' s'' = .ok s'' := by
  have hQueue : (s.unstakeQueue.getPendingStake (hexEncode blockA.slotLeader)).toNat =
      s.unstakeQueue.queuedBy (hexEncode blockA.slotLeader) :=
    UnstakeQueue.toNat_getPendingStake (by omega)
  have hPending := pending_slash hPos hFit
  refine ⟨_, (applyStakeMutations_of_accuses h slot s).trans (if_neg (by simp [hFirst])),
    getStake_slash_self (by omega), ?_, fun v hv => getStake_slash_of_ne s (Ne.symm hv), hPending,
    rfl, ?_⟩
  · rw [UnstakeQueue.getPendingStake_eq]
    unfold UnstakeQueue.queuedBy
    dsimp only
    rw [hPending, List.filter_filter]
    simp
  · intro later s'' tx' blockA' slot' hLater h' hIndex hLeader
    have hKey : Validation.offenseKey blockA' = Validation.offenseKey blockA := by
      unfold Validation.offenseKey
      rw [hIndex, hLeader]
    have hRecorded : s''.slashedEvidence (Validation.offenseKey blockA) = true :=
      foldlM_invariant (fun t : StakeState => t.slashedEvidence (Validation.offenseKey blockA) =
        true) (fun _ _ _ _ ht hStep => slashedEvidence_of_applyStakeMutations hStep ht)
        (Function.update_self ..) hLater
    rw [applyStakeMutations_of_accuses h', hKey, if_pos hRecorded]

/-- An offender with a stake and two pending unstakes, and a bystander between them. -/
def StandIn.offended : StakeState where
  stakeMap := ((({} : StakeMap).addStake (hexEncode (utf8 "offender")) 40).addStake
    (hexEncode (utf8 "bystander")) 30)
  unstakeQueue := ((({} : UnstakeQueue).enqueue (hexEncode (utf8 "offender")) 7 20).enqueue
    (hexEncode (utf8 "bystander")) 5 21).enqueue (hexEncode (utf8 "offender")) 9 22
  slashedEvidence := fun _ => false

def StandIn.accused : Block :=
  { index := 3, slotNumber := 9, slotLeader := utf8 "offender", transactions := [], prevHash := [] }

def StandIn.accusation (ownerKey : Bytes) : Transaction :=
  { tid := 1, type := .equivocationProof, ownerKey, equivBlockA := [1], equivBlockB := [2] }

theorem slash_total_once_offended :
    ∃ s', applyStakeMutations (.standIn fun _ => some StandIn.accused) 10
        (StandIn.accusation (utf8 "reporter")) StandIn.offended = .ok s' ∧
      s'.stakeMap.getStake (hexEncode (utf8 "offender")) = 0 ∧
      s'.unstakeQueue.pending = [⟨hexEncode (utf8 "bystander"), 5, 21⟩] ∧
      applyStakeMutations (.standIn fun _ => some StandIn.accused) 11
        (StandIn.accusation (utf8 "reporter")) s' = .ok s' := by
  have hAccuses : Accuses (.standIn fun _ => some StandIn.accused)
      (StandIn.accusation (utf8 "reporter")) StandIn.accused :=
    ⟨rfl, by decide +kernel, by decide, rfl⟩
  obtain ⟨s', hApply, hStake, -, -, hQueue, -, hLater⟩ :=
    slash_total_once hAccuses (s := StandIn.offended) (by decide +kernel) (by decide +kernel) rfl 10
  refine ⟨s', hApply, hStake, hQueue.trans (by decide +kernel), ?_⟩
  exact hLater [] s' _ _ 11 rfl hAccuses rfl rfl

/-- A proof without a key is passed over: the offender keeps everything. -/
theorem keyless_proof_ignored :
    StandIn.offended.slashedEvidence (Validation.offenseKey StandIn.accused) = false ∧
      applyStakeMutations (.standIn fun _ => some StandIn.accused) 10
        (StandIn.accusation []) StandIn.offended = .ok StandIn.offended ∧
      StandIn.offended.stakeMap.getStake (hexEncode StandIn.accused.slotLeader) = 40 :=
  ⟨rfl, rfl, by decide +kernel⟩

end Total

/-! ## Signed payloads -/

section Signed

/- Which key has signed which payload. -/
variable (E : External) (signed : Bytes → Bytes → Prop)

/-- Signatures are not forged: the evidence in a list of transactions verifies only where the
key has signed the payload. -/
def Unforged (txs : List Transaction) : Prop :=
  ∀ tx ∈ txs, ∀ evidence ∈ [tx.equivBlockA, tx.equivBlockB], ∀ b : Block,
    deserializeBlock E evidence = .ok b → b.verifyBlock E b.slotLeader = true →
      signed b.slotLeader (b.serializeForSigning E)

/-- A key that has signed at most one payload for each height. -/
def Honest (validator : Bytes) : Prop :=
  ∀ b b' : Block, b.index = b'.index → signed validator (b.serializeForSigning E) →
    signed validator (b'.serializeForSigning E) →
      b.serializeForSigning E = b'.serializeForSigning E

/-- The two blocks of a proof differ in what was signed. -/
def PayloadsDiffer (tx : Transaction) : Prop :=
  ∀ blockA blockB, deserializeBlock E tx.equivBlockA = .ok blockA →
    deserializeBlock E tx.equivBlockB = .ok blockB →
      blockA.serializeForSigning E ≠ blockB.serializeForSigning E

/-- No proof among the transactions takes anything from an honest key, whichever state the
transactions before it have led to. -/
def SparesHonest (slot : Int64) (s : StakeState) (txs : List Transaction) : Prop :=
  ∀ validator, Honest E signed validator → ∀ before tx after s₁ s₂,
    txs = before ++ tx :: after → tx.type = .equivocationProof →
      stakePass E slot before s = .ok s₁ → applyStakeMutations E slot tx s₁ = .ok s₂ →
        KeepsCoins (hexEncode validator) s₁ s₂

variable {E signed}

/-- What the gate saw of an accepted proof. -/
theorem exists_evidence {V : Validation} {txs : List Transaction} {sh : Shadow}
    (hRun : V.run txs = .ok sh) {tx : Transaction} (hTx : tx ∈ txs)
    (hType : tx.type = .equivocationProof) :
    tx.ownerKey.length ≠ 0 ∧ ∃ coins blockA blockB, V.Evidence coins tx blockA blockB := by
  obtain ⟨sh₁, sh₂, hStep⟩ := foldlM_mem hRun hTx
  obtain ⟨-, hRevoke, -⟩ | ⟨hKey, -, -, -, balance, mid, hStakes, -⟩ :=
    Validation.coins_of_validateTx hStep
  · exact absurd (hType.symm.trans hRevoke) (by decide)
  · refine ⟨hKey, sh₁.coins, ?_⟩
    cases hStakes with
    | proof _ blockA blockB hEvidence => exact ⟨blockA, blockB, hEvidence⟩
    | stake hOther => exact absurd (hType.symm.trans hOther) (by decide)
    | unstake hOther => exact absurd (hType.symm.trans hOther) (by decide)
    | other _ _ hNot => exact absurd hType hNot

/-- An honest key is not the leader of the blocks of a genuine proof. -/
theorem slotLeader_ne_of_honest {V : Validation} {coins : CoinShadow} {tx : Transaction}
    {blockA blockB : Block} (hEvidence : V.Evidence coins tx blockA blockB)
    {txs : List Transaction} (hTx : tx ∈ txs) (hUnforged : Unforged V.E signed txs)
    (hDiffer : PayloadsDiffer V.E tx) {validator : Bytes} (hHonest : Honest V.E signed validator) :
    blockA.slotLeader ≠ validator := by
  rintro rfl
  have hSignedA := hUnforged tx hTx _ (by simp) blockA hEvidence.decodeA hEvidence.signedA
  have hSignedB := hUnforged tx hTx _ (by simp) blockB hEvidence.decodeB hEvidence.signedB
  rw [← hEvidence.sameLeader] at hSignedB
  exact hDiffer blockA blockB hEvidence.decodeA hEvidence.decodeB
    (hHonest blockA blockB hEvidence.sameIndex hSignedA hSignedB)

/-- In an accepted block whose proofs all show two different payloads, no honest key loses
anything to a proof. The state before the block is arbitrary. -/
theorem sparesHonest_of_payloadsDiffer {env : Env} {order : JournalOrder} {s : ChainState}
    {newBlock oldBlock : Block} {slotLeaderKey : Bytes} {staged : Staged}
    (hAccepted : validateBlock env order s newBlock oldBlock slotLeaderKey = .ok staged)
    (hUnforged : Unforged env.E signed newBlock.transactions)
    (hDiffer : ∀ tx ∈ newBlock.transactions, tx.type = .equivocationProof →
      PayloadsDiffer env.E tx) :
    SparesHonest env.E signed newBlock.slotNumber (openStakes s.stakes newBlock.slotNumber)
      newBlock.transactions := by
  obtain ⟨-, ⟨sh, hRun⟩, -⟩ := validateBlock_eq_ok hAccepted
  intro validator hHonest before tx after s₁ s₂ hTxs hType _ hProof
  have hTx : tx ∈ newBlock.transactions := by simp [hTxs]
  obtain ⟨hKey, coins, blockA, blockB, hEvidence⟩ := exists_evidence hRun hTx hType
  have hLeader : blockA.slotLeader ≠ validator :=
    slotLeader_ne_of_honest hEvidence hTx hUnforged (hDiffer tx hTx hType) hHonest
  have hApply : applyEquivocationProof env.E tx s₁ = .ok s₂ := by
    simpa [applyStakeMutations, hKey, hType] using hProof
  exact keepsCoins_of_applyEquivocationProof hEvidence.decodeA
    (fun hHex => hLeader (hexEncode_injective hHex)) hApply

end Signed

/-! ## Two runs -/

/-- A validator with a stake, a registry that reports it, and a table of evidence. -/
def slashingEnv (table : List (Bytes × Block)) : Env where
  E := .standIn fun d => table.lookup d
  trustedRegistries := [utf8 "validator", utf8 "registry"]
  slotsPerDay := 8640

def slashingStake : Transaction :=
  StandIn.signAs (utf8 "validator")
    { tid := 1, type := .stake, ownerKey := utf8 "validator", fee := 1, stakeAmount := 500 }

/-- The only block that the validator signs, or one of two if `now` varies. -/
def slashingBlock (now : Int64) : Block :=
  StandIn.sealed (slashingEnv []) (StandIn.leader (utf8 "validator") now) 1 [slashingStake]
    (StandIn.genesis (slashingEnv []) (utf8 "validator"))

def slashingNode : Node :=
  StandIn.receive (slashingEnv []) (utf8 "validator") (slashingBlock 5)
    (StandIn.genesis (slashingEnv []) (utf8 "validator"))

def slashingProof : Transaction :=
  StandIn.signAs (utf8 "registry")
    { tid := 2, type := .equivocationProof, ownerKey := utf8 "registry", fee := 1
      equivBlockA := [1], equivBlockB := [2] }

/-- The block with the proof, for evidence that decodes to two given blocks. -/
def slashingReport (env : Env) : Block :=
  StandIn.sealed env (StandIn.leader (utf8 "registry") 9) 2 [slashingProof] slashingNode

/-- Evidence of two blocks that the validator signed at one height. -/
def equivocatorEnv : Env := slashingEnv [([1], slashingBlock 5), ([2], slashingBlock 6)]

/-- Evidence of one block and a copy of it with another stored hash. -/
def copyEnv : Env :=
  slashingEnv [([1], slashingBlock 5), ([2], { slashingBlock 5 with hash := [] })]

theorem slotLeader_slashingBlock (now : Int64) (h : now = 5 ∨ now = 6) :
    (slashingBlock now).slotLeader = utf8 "validator" := by
  obtain rfl | rfl := h <;> decide +kernel

theorem transactions_slashingReport :
    (slashingReport equivocatorEnv).transactions = [slashingProof] ∧
      (slashingReport copyEnv).transactions = [slashingProof] := by
  decide +kernel

theorem sparesHonest_of_payloadsDiffer_equivocator :
    ∃ staged,
      validateBlock equivocatorEnv (.ascending _ _) slashingNode.state
        (slashingReport equivocatorEnv) (slashingBlock 5) (utf8 "registry") = .ok staged ∧
      SparesHonest equivocatorEnv.E (fun key _ => key = utf8 "validator")
        (slashingReport equivocatorEnv).slotNumber
        (openStakes slashingNode.state.stakes (slashingReport equivocatorEnv).slotNumber)
        (slashingReport equivocatorEnv).transactions := by
  have hOk : (validateBlock equivocatorEnv (.ascending _ _) slashingNode.state
      (slashingReport equivocatorEnv) (slashingBlock 5) (utf8 "registry")).isOk = true := by
    decide +kernel
  obtain ⟨staged, hAccepted⟩ := exists_eq_ok hOk
  refine ⟨staged, hAccepted, sparesHonest_of_payloadsDiffer hAccepted ?_ ?_⟩
  · rw [transactions_slashingReport.1]
    intro tx hTx evidence hMem b hDecode _
    obtain rfl := List.mem_singleton.mp hTx
    obtain rfl | rfl : evidence = [1] ∨ evidence = [2] := by
      simpa [slashingProof, StandIn.signAs] using hMem
    · obtain rfl := Except.ok.inj (hDecode.symm.trans rfl : Except.ok b = .ok (slashingBlock 5))
      exact slotLeader_slashingBlock 5 (.inl rfl)
    · obtain rfl := Except.ok.inj (hDecode.symm.trans rfl : Except.ok b = .ok (slashingBlock 6))
      exact slotLeader_slashingBlock 6 (.inr rfl)
  · rw [transactions_slashingReport.1]
    intro tx hTx _ blockA blockB hA hB
    obtain rfl := List.mem_singleton.mp hTx
    obtain rfl := Except.ok.inj (hA.symm.trans rfl : Except.ok blockA = .ok (slashingBlock 5))
    obtain rfl := Except.ok.inj (hB.symm.trans rfl : Except.ok blockB = .ok (slashingBlock 6))
    decide +kernel

/-- The validator has signed one block only, which a peer accepted. The proof made of that
block and its copy is accepted too, and takes the whole stake. -/
theorem sparesHonest_fails_for_copy :
    ∃ signed : Bytes → Bytes → Prop,
      (StandIn.genesis (slashingEnv []) (utf8 "validator")).addBlock (slashingEnv [])
          (.ascending _ _) (utf8 "validator") (slashingBlock 5) = .ok slashingNode ∧
        (∃ staged, validateBlock copyEnv (.ascending _ _) slashingNode.state
          (slashingReport copyEnv) (slashingBlock 5) (utf8 "registry") = .ok staged) ∧
        Unforged copyEnv.E signed (slashingReport copyEnv).transactions ∧
        ¬ SparesHonest copyEnv.E signed (slashingReport copyEnv).slotNumber
          (openStakes slashingNode.state.stakes (slashingReport copyEnv).slotNumber)
          (slashingReport copyEnv).transactions := by
  refine ⟨fun key payload => key = utf8 "validator" ∧
    payload = (slashingBlock 5).serializeForSigning copyEnv.E, ?_, ?_, ?_, ?_⟩
  · obtain ⟨n, hn⟩ := exists_eq_ok (by decide +kernel :
      ((StandIn.genesis (slashingEnv []) (utf8 "validator")).addBlock (slashingEnv [])
        (.ascending _ _) (utf8 "validator") (slashingBlock 5)).isOk = true)
    rw [slashingNode, StandIn.receive, hn]
    rfl
  · exact exists_eq_ok (by decide +kernel)
  · rw [transactions_slashingReport.2]
    intro tx hTx evidence hMem b hDecode _
    obtain rfl := List.mem_singleton.mp hTx
    obtain rfl | rfl : evidence = [1] ∨ evidence = [2] := by
      simpa [slashingProof, StandIn.signAs] using hMem
    · obtain rfl := Except.ok.inj (hDecode.symm.trans rfl : Except.ok b = .ok (slashingBlock 5))
      exact ⟨slotLeader_slashingBlock 5 (.inl rfl), rfl⟩
    · obtain rfl := Except.ok.inj (hDecode.symm.trans rfl :
        Except.ok b = .ok { slashingBlock 5 with hash := [] })
      exact ⟨slotLeader_slashingBlock 5 (.inl rfl), rfl⟩
  · intro hSpares
    rw [transactions_slashingReport.2] at hSpares
    obtain ⟨s₂, hApply⟩ := exists_eq_ok (by decide +kernel :
      (applyStakeMutations copyEnv.E (slashingReport copyEnv).slotNumber slashingProof
        (openStakes slashingNode.state.stakes (slashingReport copyEnv).slotNumber)).isOk = true)
    have hKeeps := hSpares (utf8 "validator") (fun b b' _ hb hb' => hb.2.trans hb'.2.symm) []
      slashingProof [] _ s₂ rfl rfl rfl hApply
    have hLost : (okOr (applyStakeMutations copyEnv.E (slashingReport copyEnv).slotNumber
        slashingProof (openStakes slashingNode.state.stakes (slashingReport copyEnv).slotNumber))
        slashingNode.state.stakes).stakeMap.getStake (hexEncode (utf8 "validator")) = 0 := by
      decide +kernel
    have hHad : (openStakes slashingNode.state.stakes
        (slashingReport copyEnv).slotNumber).stakeMap.getStake (hexEncode (utf8 "validator")) =
        500 := by
      decide +kernel
    rw [hApply] at hLost
    have hStake := hKeeps.stake
    rw [hHad] at hStake
    exact absurd (hLost.symm.trans hStake) (by decide)

end Bdns.Safety
