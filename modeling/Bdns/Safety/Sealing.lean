import Bdns.Blockchain.Coins
import Bdns.Network.Node

/-!
# Sealing and validating a block

The leader takes all five state hashes at the end of its passes. A validator takes the hash of
the ledger before the domain pass. The domain pass changes the ledger in one case only, a BUY,
so a sealed block passes the hash checks where the payments of its BUYs leave the ledger as it
was. The other hashes agree, provided that the journal of the index overlay gives one answer
to `GetTxByID` in whichever order it is visited.
-/

namespace Bdns.Safety

open Lib Blockchain Network Index

/-! ## The order in which a journal is visited -/

section Order

variable {E : External} {pos : Position} {tx : Transaction} {st st' : DomainState}

/-- The order shows only in whose domain a redeemed transaction is. -/
theorem applyDomainMutations_range
    (range : List (Bytes × OverlayEntry) → List (Bytes × OverlayEntry))
    (h : redeemsOwnDomain { pos with range } tx st = redeemsOwnDomain pos tx st) :
    applyDomainMutations E { pos with range } tx st = applyDomainMutations E pos tx st := by
  unfold applyDomainMutations
  split
  case h_4 =>
    unfold applyRevoke
    rw [h]
    rfl
  case h_5 =>
    unfold applyUpdate applyUpdateOrRenew
    rw [h]
    rfl
  case h_6 =>
    unfold applyRenew applyUpdateOrRenew
    rw [h]
    rfl
  all_goals rfl

/-- The transactions that a list of transactions can bring into a journal. -/
def InPlay (E : External) (im : IndexManager) (txs : List Transaction) (t : Transaction) : Prop :=
  t ∈ txs ∨ ∃ tx ∈ txs, im.getDomain E tx.domainName = some t

/-- Transactions with one number are of one domain. -/
def TidsNameDomains (pool : Transaction → Prop) : Prop :=
  ∀ t t', pool t → pool t' → t.tid = t'.tid → t.domainName = t'.domainName

/-- An overlay over `im` whose journal holds transactions of a pool only, up to their
records. -/
structure FromPool (pool : Transaction → Prop) (im : IndexManager) (o : IndexOverlay) : Prop where
  real : o.real = im
  entries : ∀ (d : Bytes) (entry : OverlayEntry) (t : Transaction),
    o.journal[d]? = some entry → entry.tx = some t →
    ∃ p, pool p ∧ p.tid = t.tid ∧ p.domainName = t.domainName

namespace FromPool

variable {pool : Transaction → Prop} {im : IndexManager} {o : IndexOverlay}

theorem insert (h : FromPool pool im o) {d : Bytes} {entry : OverlayEntry}
    (hEntry : ∀ t, entry.tx = some t → ∃ p, pool p ∧ p.tid = t.tid ∧ p.domainName = t.domainName)
    (pendingSpent : Int64 → Bool) (slotsPerDay : Int64) :
    FromPool pool im ⟨o.real, o.journal.insert d entry, pendingSpent, slotsPerDay⟩ := by
  refine ⟨h.real, fun d' entry' t hGet ht => ?_⟩
  rw [getElem?_insert_eq_ite] at hGet
  split at hGet
  · obtain rfl := Option.some.inj hGet
    exact hEntry t ht
  · exact h.entries d' entry' t hGet ht

theorem add (h : FromPool pool im o) {d : Bytes} {t p : Transaction} (hPool : pool p)
    (hTid : p.tid = t.tid) (hName : p.domainName = t.domainName) (blockIndex : Int64)
    (txIndex : Nat) (slotsPerDay : Int64) :
    FromPool pool im (o.add d t blockIndex txIndex slotsPerDay) := by
  refine h.insert (fun t' ht' => ?_) _ _
  obtain rfl := Option.some.inj ht'
  exact ⟨p, hPool, hTid, hName⟩

theorem entryFor (h : FromPool pool im o) {d : Bytes}
    (hReal : ∀ t, im.getDomain E d = some t → pool t) (t : Transaction)
    (ht : (o.entryFor E d).tx = some t) :
    ∃ p, pool p ∧ p.tid = t.tid ∧ p.domainName = t.domainName := by
  unfold IndexOverlay.entryFor at ht
  cases hGet : o.journal[d]? with
  | none =>
    simp only [hGet, Option.getD_none] at ht
    exact ⟨t, hReal t (h.real ▸ ht), rfl, rfl⟩
  | some entry =>
    simp only [hGet, Option.getD_some] at ht
    exact h.entries d entry t hGet ht

theorem setOwner (h : FromPool pool im o) {d : Bytes}
    (hReal : ∀ t, im.getDomain E d = some t → pool t) (ownerKey : Option Bytes) :
    FromPool pool im (o.setOwner E d ownerKey) := by
  refine h.insert (fun t ht => ?_) _ _
  exact h.entryFor hReal t ht

theorem setListPrice (h : FromPool pool im o) {d : Bytes}
    (hReal : ∀ t, im.getDomain E d = some t → pool t) (price : UInt64) :
    FromPool pool im (o.setListPrice E d price) := by
  refine h.insert (fun t ht => ?_) _ _
  exact h.entryFor hReal t ht

theorem markAsSpent (h : FromPool pool im o) (txID : Int64) :
    FromPool pool im (o.markAsSpent txID) :=
  ⟨h.real, h.entries⟩

theorem replaceDomain {st : DomainState} (h : FromPool pool im st.im) (hTx : pool tx)
    (hReal : ∀ t, im.getDomain E tx.domainName = some t → pool t) {isRenew : Bool} :
    FromPool pool im (Blockchain.replaceDomain E pos tx st isRenew).im := by
  have hStored : (storeTx E tx st isRenew).tid = tx.tid ∧
      (storeTx E tx st isRenew).domainName = tx.domainName := by
    unfold storeTx
    split
    · split <;> exact ⟨rfl, rfl⟩
    · exact ⟨rfl, rfl⟩
  have hAdded : FromPool pool im (addDomain pos tx
      { st with im := st.im.markAsSpent tx.redeemsTxID } (storeTx E tx st isRenew)) :=
    (h.markAsSpent _).add hTx hStored.1.symm hStored.2.symm _ _ _
  have hPriced : FromPool pool im
      (if 0 < st.im.getListPrice E tx.domainName then
        (addDomain pos tx { st with im := st.im.markAsSpent tx.redeemsTxID }
          (storeTx E tx st isRenew)).setListPrice E tx.domainName
            (st.im.getListPrice E tx.domainName)
      else addDomain pos tx { st with im := st.im.markAsSpent tx.redeemsTxID }
        (storeTx E tx st isRenew)) := by
    split
    · exact hAdded.setListPrice hReal _
    · exact hAdded
  unfold Blockchain.replaceDomain
  dsimp only
  split
  · exact hPriced.setOwner hReal _
  · exact hPriced

/-- One domain mutation brings in the transaction itself and what the index holds for its
domain. -/
theorem step {st : DomainState} (h : FromPool pool im st.im) (hTx : pool tx)
    (hReal : ∀ t, im.getDomain E tx.domainName = some t → pool t) {err : Option Bytes}
    (hEffect : DomainEffect E pos tx st st' err) : FromPool pool im st'.im := by
  cases hEffect with
  | failed => exact h
  | skipped => exact h
  | registered => exact (h.add hTx rfl rfl _ _ _).setOwner hReal _
  | committed => exact h
  | revealed => exact ((h.add hTx rfl rfl _ _ _).setOwner hReal _).markAsSpent _
  | revoked =>
    have hSpent : FromPool pool im
        (if tx.redeemsTxID ≠ 0 then st.im.markAsSpent tx.redeemsTxID else st.im) := by
      split
      · exact h.markAsSpent _
      · exact h
    unfold revokeDomain addDomain
    dsimp only
    split
    · exact (hSpent.add hTx rfl rfl _ _ _).setOwner hReal _
    · exact hSpent.add hTx rfl rfl _ _ _
  | updated => exact replaceDomain h hTx hReal
  | renewed => exact replaceDomain h hTx hReal
  | listed => exact h.setListPrice hReal _
  | delisted => exact h.setListPrice hReal _
  | bought => exact (h.setOwner hReal _).setListPrice hReal _
  | transferred => exact (h.setOwner hReal _).setListPrice hReal _

/-- What a visit of the journal finds comes from the pool. -/
theorem exists_of_findSome? (h : FromPool pool im o) {xs : List (Bytes × OverlayEntry)}
    (hPerm : xs.Perm o.journal.toList) {txID : Int64} {t : Transaction}
    (hFind : (xs.findSome? fun e => e.2.tx.filter fun tx => tx.tid = txID) = some t) :
    ∃ p, pool p ∧ p.tid = txID ∧ p.domainName = t.domainName := by
  obtain ⟨e, he, hFilter⟩ := List.exists_of_findSome?_eq_some hFind
  obtain ⟨ht, hTid⟩ := Option.filter_eq_some_iff.mp hFilter
  obtain ⟨p, hPool, hpTid, hName⟩ := h.entries e.1 e.2 t
    (Std.ExtTreeMap.mem_toList_iff_getElem?_eq_some.mp (hPerm.mem_iff.mp he)) ht
  exact ⟨p, hPool, hpTid.trans (by simpa using hTid), hName⟩

/-- Two visits of the journal find transactions of one domain, or none. -/
theorem redeemsOwnDomain_eq {st : DomainState} (h : FromPool pool im st.im)
    (hTids : TidsNameDomains pool)
    {range : List (Bytes × OverlayEntry) → List (Bytes × OverlayEntry)}
    (hRange : (range st.im.journal.toList).Perm st.im.journal.toList)
    (hPos : (pos.range st.im.journal.toList).Perm st.im.journal.toList) :
    redeemsOwnDomain { pos with range } tx st = redeemsOwnDomain pos tx st := by
  have hNone : ∀ xs : List (Bytes × OverlayEntry), xs.Perm st.im.journal.toList →
      ((xs.findSome? fun e => e.2.tx.filter fun t => t.tid = tx.redeemsTxID) = none ↔
        ∀ e ∈ st.im.journal.toList,
          (e.2.tx.filter fun t => t.tid = tx.redeemsTxID) = none) := by
    intro xs hPerm
    rw [List.findSome?_eq_none_iff]
    exact ⟨fun hAll e he => hAll e (hPerm.mem_iff.mpr he),
      fun hAll e he => hAll e (hPerm.mem_iff.mp he)⟩
  unfold redeemsOwnDomain IndexOverlay.getTxByID
  dsimp only
  cases hFirst : (range st.im.journal.toList).findSome? fun e =>
      e.2.tx.filter fun t => t.tid = tx.redeemsTxID with
  | none => rw [(hNone _ hPos).mpr ((hNone _ hRange).mp hFirst)]
  | some t =>
    cases hSecond : (pos.range st.im.journal.toList).findSome? fun e =>
        e.2.tx.filter fun t => t.tid = tx.redeemsTxID with
    | none =>
      rw [(hNone _ hRange).mpr ((hNone _ hPos).mp hSecond)] at hFirst
      exact absurd hFirst (by simp)
    | some t' =>
      obtain ⟨p, hp, hpTid, hpName⟩ := h.exists_of_findSome? hRange hFirst
      obtain ⟨p', hp', hpTid', hpName'⟩ := h.exists_of_findSome? hPos hSecond
      have hSame := hTids p p' hp hp' (hpTid.trans hpTid'.symm)
      simp only [Option.any_some, ← hpName, ← hpName', hSame]

end FromPool

/-- Two orders give the same domain pass, where they always give the same answer about the domain of
a redeemed transaction. -/
theorem domainPass_order_of {env : Env} {txs : List Transaction} {order order' : JournalOrder}
    {slot blockIndex : Int64} {start : DomainState} (I : DomainState → Prop)
    (hStep : ∀ tx ∈ txs, ∀ i st st' err, I st →
      DomainEffect env.E (env.position order slot blockIndex i) tx st st' err → I st')
    (hSame : ∀ tx st i, I st →
      redeemsOwnDomain { env.position order' slot blockIndex i with range := order.run i } tx st =
        redeemsOwnDomain (env.position order' slot blockIndex i) tx st)
    (hInit : I start) :
    domainPass env order slot blockIndex txs start =
      domainPass env order' slot blockIndex txs start := by
  refine foldlM_congr I ?_ ?_ hInit
  · intro e he st st' h hStep'
    obtain ⟨⟨st'', err⟩, hApply, hResult⟩ := bind_eq_ok.mp hStep'
    obtain rfl := pure_eq_ok.mp hResult
    exact hStep e.1 (List.fst_mem_of_mem_zipIdx he) e.2 st _ err h
      (applyDomainMutations_eq_ok hApply)
  · intro e he st h
    have hEq := applyDomainMutations_range (E := env.E) (order.run e.2) (hSame e.1 st e.2 h)
    have hPos : { env.position order' slot blockIndex e.2 with range := order.run e.2 } =
        env.position order slot blockIndex e.2 := rfl
    rw [hPos] at hEq
    rw [hEq]

/-- The domain pass does not depend on the order in which the journal is visited. -/
theorem domainPass_order {env : Env} {im : IndexManager} {txs : List Transaction}
    (hTids : TidsNameDomains (InPlay env.E im txs)) (order order' : JournalOrder)
    (slot blockIndex : Int64) (ledger : BalanceLedger) (cs : CommitOverlay) :
    domainPass env order slot blockIndex txs ⟨ledger, .newIndexOverlay im, cs⟩ =
      domainPass env order' slot blockIndex txs ⟨ledger, .newIndexOverlay im, cs⟩ := by
  refine domainPass_order_of (fun st => FromPool (InPlay env.E im txs) im st.im) ?_ ?_ ?_
  · intro tx hMem i st st' err h hEffect
    exact h.step (.inl hMem) (fun t ht => .inr ⟨tx, hMem, ht⟩) hEffect
  · intro tx st i h
    exact h.redeemsOwnDomain_eq hTids (order.perm i _) (order'.perm i _)
  · refine ⟨rfl, fun d entry t hGet => ?_⟩
    simp [IndexOverlay.newIndexOverlay] at hGet

end Order

/-! ## The hashes of a sealed block -/

/-- The verdicts that name a state hash. -/
def hashReasons : List Reason :=
  [.balanceLedgerHash, .indexHash, .commitStoreHash, .stakeMapHash, .unstakeQueueHash]

/-- The five state hashes of a block are those of the staging copies. -/
structure SealedBy (E : External) (b : Block) (staged : Staged) : Prop where
  balanceLedgerHash : b.balanceLedgerHash = staged.ledger.hash E
  indexHash : b.indexHash = staged.im.getIndexHash E
  commitStoreHash : b.commitStoreHash = staged.cs.hash E
  stakeMapHash : b.stakeMapHash = staged.stakes.stakeMap.hash E
  unstakeQueueHash : b.unstakeQueueHash = staged.stakes.unstakeQueue.hash E

section Validator

variable {env : Env} {order order' : JournalOrder} {leader : Leader} {s : ChainState}
  {b latestBlock : Block} {slotLeaderKey : Bytes} {staged : Staged} {ledger : BalanceLedger}
  {st : DomainState} {stakes : StakeState}

/-- A validator that comes to the same staging copies as the leader accepts, unless the ledger
before the domain pass has another hash. -/
theorem validateBlock_of_passes
    (hHeader : checkHeader env.E b latestBlock slotLeaderKey = .ok ())
    (hPurges : purgesMet (s.index.getPurgeableDomains b.slotNumber) b.transactions = true)
    (hRun : ∃ sh, (blockValidation env s b).run b.transactions = .ok sh)
    (hLedger : ledgerPass b.transactions s.ledger = .ok ledger)
    (hDomain : domainPass env order b.slotNumber b.index b.transactions
      ⟨creditFees b.transactions b.slotLeader ledger, .newIndexOverlay s.index,
        openCommits s.commitStore b.index⟩ = .ok st)
    (hStakes : stakePass env.E b.slotNumber b.transactions (openStakes s.stakes b.slotNumber) =
      .ok stakes)
    (hSealed : SealedBy env.E b ⟨st.ledger, st.im, st.cs, stakes⟩) :
    validateBlock env order s b latestBlock slotLeaderKey =
      if st.ledger.hash env.E = (creditFees b.transactions b.slotLeader ledger).hash env.E then
        .ok ⟨st.ledger, st.im, st.cs, stakes⟩
      else .error (.reject .balanceLedgerHash) := by
  obtain ⟨sh, hRun⟩ := hRun
  obtain ⟨hBalance, hIndex, hCommit, hStake, hQueue⟩ := hSealed
  dsimp only at hBalance hIndex hCommit hStake hQueue
  unfold validateBlock
  by_cases hSame :
      st.ledger.hash env.E = (creditFees b.transactions b.slotLeader ledger).hash env.E
  · rw [if_pos hSame]
    simp only [hHeader, hPurges, hRun, hLedger, hDomain, hStakes, liftStop, liftPanic, check,
      hBalance, hIndex, hCommit, hStake, hQueue, hSame, if_true, bind, Except.bind, pure,
      Except.pure]
  · rw [if_neg hSame]
    simp only [hHeader, hPurges, hRun, hLedger, liftStop, liftPanic, check, hBalance, hSame,
      if_true, if_false, bind, Except.bind, pure, Except.pure]
    rfl

/-- In particular a block without a BUY passes the hash checks. -/
theorem ledger_stageBlock_of_no_buy {slot : Int64} {txs : List Transaction}
    (hNoBuy : ∀ tx ∈ txs, tx.type ≠ .buy)
    (hStage : stageBlock env order leader s latestBlock slot txs = .ok staged)
    (hLedger : ledgerPass txs s.ledger = .ok ledger) :
    staged.ledger = creditFees txs leader.publicKey ledger := by
  unfold stageBlock at hStage
  obtain ⟨⟨ledger', stakes⟩, hPass, hStage⟩ := bind_eq_ok.mp hStage
  obtain ⟨st, hDomain, hStage⟩ := bind_eq_ok.mp hStage
  obtain rfl := pure_eq_ok.mp hStage
  obtain rfl : ledger' = ledger := Except.ok.inj ((leaderPass_eq_ok.mp hPass).1.symm.trans hLedger)
  exact ledger_domainPass_of_no_buy hNoBuy hDomain

end Validator

/-! ## A market block -/

def marketEnv : Env where
  E := .standIn fun _ => none
  trustedRegistries := [utf8 "seller", utf8 "buyer"]
  slotsPerDay := 8640

/-- A node on which the seller offers a domain for 10 coins. -/
def marketNode : Node :=
  { StandIn.genesis marketEnv (utf8 "seller") with
    state := { genesisState marketEnv with
      index := ((IndexManager.add marketEnv.E {} (utf8 "a.bdns")
        { tid := 7, type := .reveal, domainName := utf8 "a.bdns", expirySlot := 100 } 0 0
          8640).setOwner marketEnv.E (utf8 "a.bdns") (some (utf8 "seller"))).setListPrice
            marketEnv.E (utf8 "a.bdns") 10 } }

def marketGenesis : Block :=
  (marketNode.blockchain.getLatestBlock).getD
    { index := 0, slotNumber := 0, slotLeader := [], transactions := [], prevHash := [] }

def marketLeader : Leader := StandIn.leader (utf8 "seller") 5

/-- The buyer's transaction: a BUY, or for comparison a plain FUND. -/
def marketTx (type : TransactionType) : Transaction :=
  StandIn.signAs (utf8 "buyer")
    { tid := 8, type, ownerKey := utf8 "buyer", fee := 1, listPrice := 10
      domainName := if type = .buy then utf8 "a.bdns" else []
      recipient := if type = .buy then [] else utf8 "seller" }

def marketBlock (type : TransactionType) : Block :=
  StandIn.sealed marketEnv marketLeader 2 [marketTx type] marketNode

/-- Both blocks carry the hashes that the leader took. -/
theorem sealedBy_marketBlock (type : TransactionType) (h : type = .buy ∨ type = .fund) :
    ∃ staged, stageBlock marketEnv (.ascending _ _) marketLeader marketNode.state marketGenesis
        (marketBlock type).slotNumber (marketBlock type).transactions = .ok staged ∧
      SealedBy marketEnv.E (marketBlock type) staged := by
  have hOk : (stageBlock marketEnv (.ascending _ _) marketLeader marketNode.state marketGenesis
      (marketBlock type).slotNumber (marketBlock type).transactions).toOption.any (fun staged =>
        (marketBlock type).balanceLedgerHash = staged.ledger.hash marketEnv.E ∧
        (marketBlock type).indexHash = staged.im.getIndexHash marketEnv.E ∧
        (marketBlock type).commitStoreHash = staged.cs.hash marketEnv.E ∧
        (marketBlock type).stakeMapHash = staged.stakes.stakeMap.hash marketEnv.E ∧
        (marketBlock type).unstakeQueueHash = staged.stakes.unstakeQueue.hash marketEnv.E) =
      true := by
    obtain rfl | rfl := h <;> decide +kernel
  cases hStage : stageBlock marketEnv (.ascending _ _) marketLeader marketNode.state marketGenesis
      (marketBlock type).slotNumber (marketBlock type).transactions with
  | error p =>
    rw [hStage] at hOk
    exact absurd hOk (by simp [Except.toOption])
  | ok staged =>
    rw [hStage] at hOk
    obtain ⟨h₁, h₂, h₃, h₄, h₅⟩ := of_decide_eq_true hOk
    exact ⟨staged, rfl, h₁, h₂, h₃, h₄, h₅⟩

end Bdns.Safety
