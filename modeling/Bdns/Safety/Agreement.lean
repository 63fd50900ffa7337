import Bdns.Network.Leader
import Bdns.Safety.Ownership
import Bdns.Safety.Sealing

/-!
# Leader and validators end in the same state

The producing leader applies coins and stakes of each transaction in turn, then the fees, then
the domains, and flushes its index overlay once. A validator makes three passes in another
order, and flushes its overlay twice. The passes touch different parts of the state, so the two
agree, unless the order in which a journal is visited shows: `GetTxByID` returns the first
transaction with a number, and nothing keeps two transactions from having one number.
-/

namespace Bdns.Safety

open Lib Blockchain Network Index

/-! ## The names in a journal -/

/-- The journal speaks of known names only. -/
def KeysIn (names : Set Bytes) (o : IndexOverlay) : Prop := ∀ d ∈ o.journal, d ∈ names

namespace KeysIn

variable {E : External} {names : Set Bytes} {o : IndexOverlay} {d : Bytes}

theorem insert (h : KeysIn names o) (hd : d ∈ names) (entry : OverlayEntry)
    (pendingSpent : Int64 → Bool) (slotsPerDay : Int64) :
    KeysIn names ⟨o.real, o.journal.insert d entry, pendingSpent, slotsPerDay⟩ := by
  intro d' hd'
  rw [Std.ExtTreeMap.mem_insert, Std.LawfulEqCmp.compare_eq_iff_eq] at hd'
  rcases hd' with rfl | hd'
  · exact hd
  · exact h d' hd'

theorem add (h : KeysIn names o) (hd : d ∈ names) (tx : Transaction) (blockIndex : Int64)
    (txIndex : Nat) (slotsPerDay : Int64) :
    KeysIn names (o.add d tx blockIndex txIndex slotsPerDay) :=
  h.insert hd _ _ _

theorem setOwner (h : KeysIn names o) (hd : d ∈ names) (ownerKey : Option Bytes) :
    KeysIn names (o.setOwner E d ownerKey) :=
  h.insert hd _ _ _

theorem setListPrice (h : KeysIn names o) (hd : d ∈ names) (price : UInt64) :
    KeysIn names (o.setListPrice E d price) :=
  h.insert hd _ _ _

theorem keepOwner (h : KeysIn names o) (hd : d ∈ names) (owner : Option Bytes) :
    KeysIn names (Safety.keepOwner E d owner o) := by
  cases owner with
  | none => exact h
  | some existingOwner => exact h.setOwner hd _

variable {pos : Position} {tx : Transaction} {st st' : DomainState} {err : Option Bytes}

theorem step (h : KeysIn names st.im) (hd : tx.domainName ∈ names)
    (hEffect : DomainEffect E pos tx st st' err) : KeysIn names st'.im := by
  have hReplaced : ∀ isRenew, KeysIn names (replaceDomain E pos tx st isRenew).im := by
    intro isRenew
    rw [im_replaceDomain]
    refine KeysIn.keepOwner ?_ hd _
    have hSpent : KeysIn names (st.im.markAsSpent tx.redeemsTxID) := h
    have hAdded : KeysIn names (addDomain pos tx
        { st with im := st.im.markAsSpent tx.redeemsTxID } (storeTx E tx st isRenew)) :=
      hSpent.add hd _ _ _ _
    unfold pricedDomain
    dsimp only
    split
    · exact hAdded.setListPrice hd _
    · exact hAdded
  cases hEffect with
  | failed | skipped | committed => exact h
  | registered => exact (h.add hd _ _ _ _).setOwner hd _
  | revealed => exact (h.add hd _ _ _ _).setOwner hd _
  | revoked =>
    rw [im_revokeDomain]
    refine KeysIn.keepOwner ?_ hd _
    have hSpent : KeysIn names (spentDomain tx st) := by
      unfold spentDomain
      split <;> exact h
    exact hSpent.add hd _ _ _ _
  | updated | renewed => exact hReplaced _
  | listed | delisted => exact h.setListPrice hd _
  | bought | transferred => exact (h.setOwner hd _).setListPrice hd _

end KeysIn

theorem keysIn_newIndexOverlay (names : Set Bytes) (im : IndexManager) :
    KeysIn names (.newIndexOverlay im) := by
  intro d hd
  simp [IndexOverlay.newIndexOverlay] at hd

/-- The journal of a block speaks of the names in its transactions. -/
theorem keysIn_of_stages {env : Env} {order : JournalOrder} {s : ChainState} {b : Block}
    {staged : Staged} {names : Set Bytes} (h : Stages env order s b staged)
    (hNames : ∀ tx ∈ b.transactions, tx.domainName ∈ names) : KeysIn names staged.im := by
  obtain ⟨⟨ledger, st, -, hDomain, -, hIm, -⟩, -⟩ := h
  rw [hIm]
  refine domainPass_invariant (fun t => KeysIn names t.im) ?_ (keysIn_newIndexOverlay names _)
    hDomain
  intro tx hMem i t t' err hKeys hApply
  exact hKeys.step (hNames tx hMem) (applyDomainMutations_eq_ok hApply)

/-! ## What a commit installs -/

/-- Two states that no query tells apart. -/
structure Agree (env : Env) (names : Set Bytes) (s s' : ChainState) : Prop where
  ledger : s.ledger = s'.ledger
  commitStore : s.commitStore = s'.commitStore
  stakes : s.stakes = s'.stakes
  getDomain : ∀ d ∈ names, s.index.getDomain env.E d = s'.index.getDomain env.E d
  getOwner : ∀ d ∈ names, s.index.getOwner env.E d = s'.index.getOwner env.E d
  getListPrice : ∀ d ∈ names, s.index.getListPrice env.E d = s'.index.getListPrice env.E d
  isSpent : ∀ txID, s.index.isSpent txID = s'.index.isSpent txID

/-- One flush and two flushes of the same staging copies agree, in any order. -/
theorem agree_install {env : Env} {names : Set Bytes} (order : JournalOrder) (i : Nat)
    (order' : JournalOrder) (txs : List Transaction) {staged : Staged}
    (hKeys : KeysIn names staged.im) (hInj : Set.InjOn env.E.sha256 names) (s : ChainState) :
    Agree env names (install env (order.run i) staged s)
      (installValidated env order' txs staged s) := by
  have hSearch : ∀ d ∈ names,
      (staged.im.commit env.E (order.run i) s.index).tree.search (hashDomain env.E d) =
        (staged.im.commit env.E (order'.run (txs.length + 1))
          (staged.im.commit env.E (order'.run txs.length) s.index)).tree.search
            (hashDomain env.E d) := by
    intro d hd
    have hApart : ∀ d' ∈ staged.im.journal, hashDomain env.E d' = hashDomain env.E d → d' = d :=
      fun d' hd' hEq => hInj (hKeys d' hd') hd (hexEncode_injective hEq)
    rw [search_commit_twice (order'.perm _) (order'.perm _) _ hApart,
      IndexOverlay.search_commit _ (order.perm i) _ d hApart,
      IndexOverlay.search_commit _ (order'.perm _) _ d hApart]
  refine ⟨rfl, rfl, rfl, fun d hd => ?_, fun d hd => ?_, fun d hd => ?_, fun txID => ?_⟩
  · rw [IndexManager.getDomain_eq, IndexManager.getDomain_eq]
    exact congrArg _ (hSearch d hd)
  · exact congrArg (Option.bind · fun node => node.2.ownerKey) (hSearch d hd)
  · unfold IndexManager.getListPrice
    exact congrArg (fun r => (Option.map _ r).getD 0) (hSearch d hd)
  · change (staged.im.commit env.E _ s.index).isSpent txID =
      (staged.im.commit env.E _ (staged.im.commit env.E _ s.index)).isSpent txID
    rw [IndexOverlay.isSpent_commit, IndexOverlay.isSpent_commit, IndexOverlay.isSpent_commit,
      Bool.or_assoc, Bool.or_self]

/-! ## The theorem -/

section Agreement

variable {env : Env} {order order' : JournalOrder} {leader : Leader} {s : ChainState}
  {latestBlock b : Block} {staged staged' : Staged}

/-- The staging copies of the leader are those of a validator. -/
theorem staged_eq (hStage : stageBlock env order leader s latestBlock b.slotNumber b.transactions =
      .ok staged)
    (hAccepted : validateBlock env order' s b latestBlock leader.publicKey = .ok staged')
    (hTids : TidsNameDomains (InPlay env.E s.index b.transactions)) : staged = staged' := by
  obtain ⟨hHeader, -, ⟨ledger', st', hPass', hDomain', hLedger, hIm, hCs⟩, hStakes'⟩ :=
    validateBlock_eq_ok hAccepted
  obtain ⟨hIndex, -, -, hLeader, -⟩ := checkHeader_eq_ok hHeader
  unfold stageBlock at hStage
  obtain ⟨⟨ledger, stakes⟩, hPass, hStage⟩ := bind_eq_ok.mp hStage
  obtain ⟨st, hDomain, hStage⟩ := bind_eq_ok.mp hStage
  obtain rfl := pure_eq_ok.mp hStage
  obtain ⟨hLedgerPass, hStakes⟩ := leaderPass_eq_ok.mp hPass
  obtain rfl : ledger = ledger' := Except.ok.inj (hLedgerPass.symm.trans hPass')
  rw [hIndex, ← hLeader, domainPass_order hTids order order', hDomain'] at hDomain
  obtain rfl : st' = st := Except.ok.inj hDomain
  obtain rfl : stakes = staged'.stakes := Except.ok.inj (hStakes.symm.trans hStakes')
  rw [← hLedger, ← hIm, ← hCs]

end Agreement

/-- A journal visited from its end. -/
def reversedOrder : JournalOrder := ⟨fun _ xs => xs.reverse, fun _ xs => List.reverse_perm xs⟩

def twinCommit (tid : Int64) (nonce : UInt64) (domain : Bytes) : Transaction :=
  StandIn.registryTx
    { tid, type := .commit, nonce,
      commitHash := StandIn.registryEnv.E.sha256 (commitPreimage domain [1] (utf8 "registry")) }

def twinRecords : List Record := [⟨utf8 "A", utf8 "1.2.3.4", 0⟩]

/-- Both registrations have the number 7. -/
def twinReveal (redeemsTxID : Int64) (nonce : UInt64) (domain : Bytes) : Transaction :=
  StandIn.registryTx
    { tid := 7, type := .reveal, nonce, redeemsTxID, salt := [1], expirySlot := 1000,
      domainName := domain, recipient := utf8 "registry", records := twinRecords }

/-- An UPDATE of the second domain with the records and the expiry slot that it has. -/
def twinUpdate : Transaction :=
  StandIn.registryTx
    { tid := 9, type := .update, nonce := 4, redeemsTxID := 7, expirySlot := 1000,
      domainName := utf8 "b.bdns", records := twinRecords }

def twinTip : ChainState × Block :=
  StandIn.afterLog [(1, [twinCommit 1 0 (utf8 "a.bdns"), twinCommit 2 1 (utf8 "b.bdns")])]

def twinTxs : List Transaction :=
  [twinReveal 1 2 (utf8 "a.bdns"), twinReveal 2 3 (utf8 "b.bdns"), twinUpdate]

/-- What the leader stages, for whom the second domain comes first. -/
def twinStage : Go Staged :=
  stageBlock StandIn.registryEnv reversedOrder (StandIn.leader (utf8 "registry") 4) twinTip.1
    twinTip.2 4 twinTxs

def twinBlock : Block :=
  okOr (twinStage >>= newBlock StandIn.registryEnv (StandIn.leader (utf8 "registry") 4) twinTip.2 4
    twinTxs) twinTip.2

end Bdns.Safety
