import Bdns.Blockchain.Acceptance
import Bdns.Blockchain.DomainEffect
import Bdns.Network.Chain

/-!
# Commit and reveal

A REVEAL registers a domain only if an earlier COMMIT of the same key announced it. The store of
pending commits is the only thing that ties the two together: every record in it comes from a
COMMIT of the chain that no REVEAL has used (`Accounted`), a REVEAL finds its record there, and
it takes the record out.
-/

namespace Bdns.Safety

open Lib Blockchain Network Index

/-! ## The REVEALs that took effect -/

/-- Where a transaction stands in a chain. -/
structure Place where
  block : Nat
  tx : Nat
  deriving DecidableEq

/-- The block and the transaction at a place. -/
def At (blocks : List Block) (p : Place) (b : Block) (tx : Transaction) : Prop :=
  blocks[p.block]? = some b ∧ b.transactions[p.tx]? = some tx

/-- A REVEAL for which `ApplyDomainMutations` returned no error, with its block and what the
index held for its domain before the block. -/
structure EffectiveReveal where
  place : Place
  block : Block
  tx : Transaction
  existing : Option Transaction

/-- The `j`-th transaction of an accepted block is a REVEAL that takes effect. -/
def TakesEffect (env : Env) (order : JournalOrder) (s : ChainState) (b : Block) (j : Nat)
    (tx : Transaction) : Prop :=
  tx.type = .reveal ∧ ∃ before after ledger st st', b.transactions = before ++ tx :: after ∧
    before.length = j ∧ ledgerPass b.transactions s.ledger = .ok ledger ∧
    domainPass env order b.slotNumber b.index before (domainStart s b ledger) = .ok st ∧
    applyDomainMutations env.E (env.position order b.slotNumber b.index j) tx st = .ok (st', none)

/-- The REVEALs that take effect in the next block of a chain. -/
def newReveals (env : Env) (order : JournalOrder) (s : ChainState) (b : Block) (n : Nat) :
    Set EffectiveReveal :=
  {r | r.place.block = n ∧ r.block = b ∧ TakesEffect env order s b r.place.tx r.tx ∧
    r.existing = s.index.getDomain env.E r.tx.domainName}

/-- A chain of accepted blocks with all REVEALs that took effect in it. -/
inductive RevealLog (env : Env) : List Block → ChainState → Set EffectiveReveal → Prop
  | genesis (block : Block) : RevealLog env [block] (genesisState env) ∅
  | add {blocks : List Block} {s : ChainState} {log : Set EffectiveReveal} {latest b : Block}
      {order : JournalOrder} {slotLeader : Bytes} {staged : Staged}
      (chain : RevealLog env blocks s log) (tip : blocks.getLast? = some latest)
      (accepted : validateBlock env order s b latest slotLeader = .ok staged) :
      RevealLog env (blocks ++ [b]) (installValidated env order b.transactions staged s)
        (log ∪ newReveals env order s b blocks.length)

/-- Every chain has its log. -/
theorem exists_revealLog {env : Env} {blocks : List Block} {s : ChainState}
    (hChain : Chain env blocks s) : ∃ log, RevealLog env blocks s log := by
  induction hChain with
  | genesis block => exact ⟨_, .genesis block⟩
  | add _ tip accepted ih =>
    obtain ⟨log, hLog⟩ := ih
    exact ⟨_, .add hLog tip accepted⟩

theorem RevealLog.chain {env : Env} {blocks : List Block} {s : ChainState}
    {log : Set EffectiveReveal} (h : RevealLog env blocks s log) : Chain env blocks s := by
  induction h with
  | genesis block => exact .genesis block
  | add _ tip accepted ih => exact .add ih tip accepted

theorem At.append {blocks more : List Block} {p : Place} {b : Block} {tx : Transaction}
    (h : At blocks p b tx) : At (blocks ++ more) p b tx := by
  refine ⟨?_, h.2⟩
  rw [List.getElem?_append_left (List.getElem?_eq_some_iff.mp h.1).1]
  exact h.1

theorem At.lt {blocks : List Block} {p : Place} {b : Block} {tx : Transaction}
    (h : At blocks p b tx) : p.block < blocks.length :=
  (List.getElem?_eq_some_iff.mp h.1).1

theorem At.last {blocks : List Block} {b : Block} {tx : Transaction} {j : Nat}
    (h : b.transactions[j]? = some tx) : At (blocks ++ [b]) ⟨blocks.length, j⟩ b tx :=
  ⟨by simp, h⟩

/-! ## The commits of one block -/

section Overlay

variable {env : Env} {order : JournalOrder} {s : ChainState} {b : Block}

/-- The record that a COMMIT leaves in the store. -/
def recordOf (b : Block) (tx : Transaction) : CommitRecord where
  commitHash := tx.commitHash
  committerPK := tx.ownerKey
  commitBlock := b.index
  commitSlot := b.slotNumber
  commitTID := tx.tid
  expiryBlock := b.index + commitMaxWindow

/-- What a transaction does to the pending commits. -/
theorem commits_of_effect {j : Nat} {tx : Transaction} {st st' : DomainState} {err : Option Bytes}
    (h : DomainEffect env.E (env.position order b.slotNumber b.index j) tx st st' err) :
    st'.cs = st.cs ∨ tx.type = .commit ∧ st'.cs = st.cs.addCommit (recordOf b tx) ∨
      tx.type = .reveal ∧ st'.cs = st.cs.consumeCommit (Validation.revealKey env.E tx) := by
  cases h with
  | committed hType => exact .inr (.inl ⟨hType, rfl⟩)
  | revealed hType => exact .inr (.inr ⟨hType, rfl⟩)
  | _ => exact .inl rfl

/-- A REVEAL that takes effect found its commit and took it. -/
theorem consumed_of_reveal {pos : Position} {tx : Transaction} {st st' : DomainState}
    (hType : tx.type = .reveal) (h : DomainEffect env.E pos tx st st' none) :
    st.cs.consumed (Validation.revealKey env.E tx) = false ∧
      st'.cs.consumed (Validation.revealKey env.E tx) = true := by
  cases h with
  | revealed _ rec hCommit =>
    exact ⟨(CommitOverlay.getCommit_eq_some.mp hCommit).1, by simp [CommitOverlay.consumeCommit]⟩
  | skipped hSkipped => rw [hType] at hSkipped; simp at hSkipped
  | registered hOther | committed hOther | revoked hOther | updated hOther | renewed hOther
  | listed hOther | delisted hOther | bought hOther | transferred hOther =>
    rw [hType] at hOther
    cases hOther

/-- The overlay while a block is applied: what it was opened over, and additions that come from
COMMITs of the block. -/
structure FromBlock (b : Block) (store : CommitStore) (cs : CommitOverlay) : Prop where
  base : cs.base = store.pending
  added : ∀ key rec, cs.added[key]? = some rec →
    rec.key = key ∧ ∃ tx ∈ b.transactions, tx.type = .commit ∧ rec = recordOf b tx

theorem fromBlock_openCommits (store : CommitStore) :
    FromBlock b store (openCommits store b.index) where
  base := rfl
  added key rec h := by
    simp [openCommits, CommitOverlay.purgeExpired, CommitOverlay.newCommitOverlay] at h

/-- The additions of an overlay after a COMMIT, a REVEAL or another transaction. -/
theorem fromBlock_step {store : CommitStore} {j : Nat} {tx : Transaction} {st st' : DomainState}
    {err : Option Bytes} (h : FromBlock b store st.cs) (hMem : tx ∈ b.transactions)
    (hApply : applyDomainMutations env.E (env.position order b.slotNumber b.index j) tx st =
      .ok (st', err)) : FromBlock b store st'.cs := by
  rcases commits_of_effect (applyDomainMutations_eq_ok hApply) with
    hSame | ⟨hType, hAdd⟩ | ⟨-, hConsume⟩
  · exact hSame ▸ h
  · rw [hAdd]
    refine ⟨h.base, fun key rec hGet => ?_⟩
    rw [CommitOverlay.addCommit, getElem?_insert_eq_ite] at hGet
    split at hGet
    · rename_i hKey
      cases hGet
      exact ⟨hKey, tx, hMem, hType, rfl⟩
    · exact h.added key rec hGet
  · rw [hConsume]
    refine ⟨h.base, fun key rec hGet => ?_⟩
    rw [CommitOverlay.consumeCommit, getElem?_erase_eq_ite] at hGet
    split at hGet
    · exact absurd hGet (by simp)
    · exact h.added key rec hGet

/-- What is consumed stays consumed. -/
theorem consumed_step {j : Nat} {tx : Transaction} {st st' : DomainState} {err : Option Bytes}
    {key : Bytes} (h : st.cs.consumed key = true)
    (hApply : applyDomainMutations env.E (env.position order b.slotNumber b.index j) tx st =
      .ok (st', err)) : st'.cs.consumed key = true := by
  rcases commits_of_effect (applyDomainMutations_eq_ok hApply) with
    hSame | ⟨-, hAdd⟩ | ⟨-, hConsume⟩
  · exact hSame ▸ h
  · rw [hAdd]
    exact h
  · rw [hConsume]
    simp only [CommitOverlay.consumeCommit, Function.update_apply]
    split
    · rfl
    · exact h

/-- After a REVEAL that takes effect, its commit is consumed wherever the pass stands. -/
theorem consumed_of_takesEffect {j : Nat} {reveal : Transaction} {ledger : BalanceLedger}
    (h : TakesEffect env order s b j reveal)
    (hLedger : ledgerPass b.transactions s.ledger = .ok ledger) {before after : List Transaction}
    (hSplit : b.transactions = before ++ after) (hj : j < before.length) {st : DomainState}
    (hPass : domainPass env order b.slotNumber b.index before (domainStart s b ledger) = .ok st) :
    st.cs.consumed (Validation.revealKey env.E reveal) = true := by
  obtain ⟨hType, before', after', ledger', st₁, st₂, hSplit', rfl, hLedger', hBefore, hApply⟩ := h
  obtain rfl : ledger' = ledger := by
    rw [hLedger] at hLedger'
    exact (Except.ok.inj hLedger').symm
  obtain ⟨middle, rfl⟩ : ∃ middle, before = before' ++ reveal :: middle := by
    rcases List.append_eq_append_iff.mp (hSplit.symm.trans hSplit') with
      ⟨more, hMore, -⟩ | ⟨more, hMore, hRest⟩
    · rw [hMore] at hj
      simp at hj
    · cases more with
      | nil => rw [hMore] at hj; simp at hj
      | cons head middle =>
        obtain ⟨rfl, -⟩ := List.cons.inj hRest
        exact ⟨middle, hMore⟩
  obtain ⟨st₃, st₄, err, hBefore', hApply', hReveal⟩ := domainPass_split rfl hPass
  obtain rfl : st₁ = st₃ := Except.ok.inj (hBefore.symm.trans hBefore')
  obtain ⟨rfl, -⟩ := Prod.mk.inj (Except.ok.inj (hApply.symm.trans hApply'))
  have hConsumed := (consumed_of_reveal hType (applyDomainMutations_eq_ok hApply)).2
  -- the rest of the pass keeps what the REVEAL consumed
  rw [List.append_cons] at hPass
  exact domainPass_invariant_from
    (fun st => st.cs.consumed (Validation.revealKey env.E reveal) = true)
    (fun _ _ _ _ _ _ hOld hStep => consumed_step hOld hStep) hReveal hConsumed hPass

end Overlay

/-! ## Slots and indices of a commit and its reveal -/

/-- The difference of two slots is computed in 64 bits; where it would overflow, it is negative
and the REVEAL is rejected. -/
theorem add_three_le_of_delay {now commitSlot : Int64} (hLt : commitSlot < now)
    (hDelay : ¬ now - commitSlot < commitMinDelay) : commitSlot.toInt + 3 ≤ now.toInt := by
  rw [Int64.lt_iff_toInt_lt] at hLt hDelay
  rw [Int64.toInt_sub] at hDelay
  have hMin : commitMinDelay.toInt = 3 := rfl
  rw [hMin, Int.bmod_def] at hDelay
  have := now.toInt_lt
  have := now.le_toInt
  have := commitSlot.toInt_lt
  have := commitSlot.le_toInt
  split at hDelay <;> omega

/-- The block of expiry may overflow; then every later index is negative. -/
theorem sub_hundred_le_of_window {index commitBlock : Int64}
    (hOpen : ¬ commitBlock + commitMaxWindow < index) :
    index.toInt - 100 ≤ commitBlock.toInt := by
  rw [Int64.lt_iff_toInt_lt, Int64.toInt_add] at hOpen
  have hMax : commitMaxWindow.toInt = 100 := rfl
  rw [hMax, Int.bmod_def] at hOpen
  have := index.toInt_lt
  have := index.le_toInt
  have := commitBlock.toInt_lt
  have := commitBlock.le_toInt
  split at hOpen <;> omega

/-! ## Every pending record has its COMMIT, and no REVEAL has used it -/

/-- What ties a REVEAL to its COMMIT. -/
structure Redeems (env : Env) (r : EffectiveReveal) (commitBlock : Block)
    (commit : Transaction) : Prop where
  type : commit.type = .commit
  key : commit.ownerKey = r.tx.ownerKey
  signed : verifySignature env.E r.tx.ownerKey commit = true
  hash : commit.commitHash =
    env.E.sha256 (commitPreimage r.tx.domainName r.tx.salt r.tx.ownerKey)
  tid : commit.tid = r.tx.redeemsTxID
  delay : commitBlock.slotNumber.toInt + 3 ≤ r.block.slotNumber.toInt
  window : r.block.index.toInt - 100 ≤ commitBlock.index.toInt
  afterPurge : ∀ existing, r.existing = some existing →
    computePurgeSlot existing.expirySlot env.slotsPerDay ≤ commitBlock.slotNumber

/-- A record was left by the signed COMMIT at a place. -/
def LeftBy (E : External) (blocks : List Block) (p : Place) (rec : CommitRecord) : Prop :=
  ∃ b tx, At blocks p b tx ∧ tx.type = .commit ∧ verifySignature E tx.ownerKey tx = true ∧
    rec = recordOf b tx

/-- The commits of a chain: `origin` finds the COMMIT of a REVEAL, `source` that of a pending
record. -/
structure Accounted (env : Env) (blocks : List Block) (store : CommitStore)
    (log : Set EffectiveReveal) (origin : EffectiveReveal → Place) (source : Bytes → Place) :
    Prop where
  pending : ∀ key rec, store.getCommit key = some rec →
    rec.key = key ∧ LeftBy env.E blocks (source key) rec ∧ ∀ r ∈ log, origin r ≠ source key
  once : Set.InjOn origin log
  redeems : ∀ r ∈ log, At blocks r.place r.block r.tx ∧ r.tx.type = .reveal ∧
    (origin r).block < r.place.block ∧
    ∃ commitBlock commit, At blocks (origin r) commitBlock commit ∧
      Redeems env r commitBlock commit

theorem LeftBy.append {E : External} {blocks more : List Block} {p : Place} {rec : CommitRecord}
    (h : LeftBy E blocks p rec) : LeftBy E (blocks ++ more) p rec := by
  obtain ⟨b, tx, hAt, hRest⟩ := h
  exact ⟨b, tx, hAt.append, hRest⟩

/-- A place left one record. -/
theorem LeftBy.unique {E : External} {blocks : List Block} {p : Place} {rec rec' : CommitRecord}
    (h : LeftBy E blocks p rec) (h' : LeftBy E blocks p rec') : rec = rec' := by
  obtain ⟨b, tx, hAt, -, -, rfl⟩ := h
  obtain ⟨b', tx', hAt', -, -, rfl⟩ := h'
  obtain rfl := Option.some.inj (hAt.1.symm.trans hAt'.1)
  obtain rfl := Option.some.inj (hAt.2.symm.trans hAt'.2)
  rfl

section Step

variable {env : Env} {order : JournalOrder} {s : ChainState} {b latest : Block}
  {slotLeader : Bytes} {staged : Staged} {blocks : List Block}

/-- The record that a REVEAL opens was pending before the block. -/
theorem pending_of_opens {tx : Transaction} {rec : CommitRecord}
    (h : Validation.Opens (blockValidation env s b) tx rec) :
    s.commitStore.getCommit (Validation.revealKey env.E tx) = some rec ∧
      ¬ rec.expiryBlock < b.index := by
  obtain ⟨-, -, hAdded | ⟨-, hBase, hOpen⟩⟩ := CommitOverlay.getCommit_eq_some.mp h.pending
  · exact absurd hAdded (by simp [blockValidation, openCommits, CommitOverlay.purgeExpired,
      CommitOverlay.newCommitOverlay])
  · exact ⟨hBase, hOpen⟩

theorem TakesEffect.getElem? {j : Nat} {tx : Transaction}
    (h : TakesEffect env order s b j tx) : b.transactions[j]? = some tx := by
  obtain ⟨-, before, after, -, -, -, hSplit, rfl, -⟩ := h
  rw [hSplit]
  simp

/-- A REVEAL that takes effect has passed its gates. -/
theorem TakesEffect.opens {j : Nat} {tx : Transaction} (h : TakesEffect env order s b j tx)
    (hAccepted : validateBlock env order s b latest slotLeader = .ok staged) :
    ∃ rec, Validation.Opens (blockValidation env s b) tx rec := by
  obtain ⟨-, ⟨sh, hRun⟩, -⟩ := validateBlock_eq_ok hAccepted
  obtain ⟨sh₁, sh₂, hValid⟩ := foldlM_mem hRun (List.mem_of_getElem? h.getElem?)
  exact Validation.reveal_of_validateTx hValid h.1

/-- Two REVEALs of one block that take effect use different commits. -/
theorem eq_of_revealKey_eq {j j' : Nat} {tx tx' : Transaction}
    (h : TakesEffect env order s b j tx) (h' : TakesEffect env order s b j' tx')
    (hKey : Validation.revealKey env.E tx = Validation.revealKey env.E tx') : j = j' := by
  -- the later of the two would find its commit consumed
  have hNotLater : ∀ {j j' : Nat} {tx tx' : Transaction}, TakesEffect env order s b j tx →
      TakesEffect env order s b j' tx' →
      Validation.revealKey env.E tx = Validation.revealKey env.E tx' → ¬ j < j' := by
    rintro j j' tx tx' h ⟨hType, before, after, ledger, st, st', hSplit, rfl, hLedger, hBefore,
      hApply⟩ hKey hLt
    have hConsumed := consumed_of_takesEffect h hLedger hSplit hLt hBefore
    have hFree := (consumed_of_reveal hType (applyDomainMutations_eq_ok hApply)).1
    rw [← hKey, hConsumed] at hFree
    cases hFree
  have h₁ := hNotLater h h' hKey
  have h₂ := hNotLater h' h hKey.symm
  omega

/-- The record that a REVEAL opens and the COMMIT that left it. -/
theorem redeems_of_opens {r : EffectiveReveal} {rec : CommitRecord} {p : Place}
    (hBlock : r.block = b) (hExisting : r.existing = s.index.getDomain env.E r.tx.domainName)
    (hOpens : Validation.Opens (blockValidation env s b) r.tx rec)
    (hRec : rec.key = Validation.revealKey env.E r.tx) (hLeft : LeftBy env.E blocks p rec)
    (hSlots : ∀ b' ∈ blocks, b'.slotNumber < b.slotNumber) :
    ∃ commitBlock commit, At blocks p commitBlock commit ∧ Redeems env r commitBlock commit := by
  obtain ⟨commitBlock, commit, hAt, hType, hSigned, rfl⟩ := hLeft
  have hKey : r.tx.ownerKey = commit.ownerKey := hOpens.key
  have hSlot := hSlots commitBlock (List.mem_of_getElem? hAt.1)
  refine ⟨commitBlock, commit, hAt, hType, hKey.symm, hKey ▸ hSigned, hexEncode_injective hRec,
    hOpens.tid.symm, ?_, ?_, fun existing hSome => ?_⟩
  · rw [hBlock]
    exact add_three_le_of_delay hSlot hOpens.delay
  · rw [hBlock]
    exact sub_hundred_le_of_window (pending_of_opens hOpens).2
  · exact (hOpens.free existing (hExisting.symm.trans hSome)).2

/-- Within a block the place determines the REVEAL. -/
theorem newReveals_ext {n : Nat} {r r' : EffectiveReveal} (hr : r ∈ newReveals env order s b n)
    (hr' : r' ∈ newReveals env order s b n) (hTx : r.place.tx = r'.place.tx) : r = r' := by
  obtain ⟨hBlock, hB, hEffect, hExisting⟩ := hr
  obtain ⟨hBlock', hB', hEffect', hExisting'⟩ := hr'
  have hSame : r.tx = r'.tx := by
    have hGet := hEffect.getElem?
    rw [hTx, hEffect'.getElem?] at hGet
    exact (Option.some.inj hGet).symm
  obtain ⟨⟨_, _⟩, _, _, _⟩ := r
  obtain ⟨⟨_, _⟩, _, _, _⟩ := r'
  simp_all

/-- The COMMIT of a new REVEAL is the source of the record that it finds. -/
def extendOrigin (E : External) (n : Nat) (origin : EffectiveReveal → Place)
    (source : Bytes → Place) (r : EffectiveReveal) : Place :=
  if r.place.block < n then origin r else source (Validation.revealKey E r.tx)

section Accounting

variable {log : Set EffectiveReveal} {origin : EffectiveReveal → Place} {source : Bytes → Place}

theorem Accounted.extendOrigin_old (h : Accounted env blocks s.commitStore log origin source)
    {r : EffectiveReveal} (hr : r ∈ log) :
    extendOrigin env.E blocks.length origin source r = origin r :=
  if_pos (h.redeems r hr).1.lt

theorem extendOrigin_new {r : EffectiveReveal}
    (hr : r ∈ newReveals env order s b blocks.length) :
    extendOrigin env.E blocks.length origin source r =
      source (Validation.revealKey env.E r.tx) :=
  if_neg (by rw [hr.1]; exact Nat.lt_irrefl _)

/-- A new REVEAL finds a record that is accounted for. -/
theorem Accounted.found (h : Accounted env blocks s.commitStore log origin source)
    (hAccepted : validateBlock env order s b latest slotLeader = .ok staged)
    {r : EffectiveReveal} (hr : r ∈ newReveals env order s b blocks.length) :
    ∃ rec, Validation.Opens (blockValidation env s b) r.tx rec ∧
      rec.key = Validation.revealKey env.E r.tx ∧
      LeftBy env.E blocks (source (Validation.revealKey env.E r.tx)) rec ∧
      ∀ r' ∈ log, origin r' ≠ source (Validation.revealKey env.E r.tx) := by
  obtain ⟨rec, hOpens⟩ := hr.2.2.1.opens hAccepted
  obtain ⟨hKey, hLeft, hUnused⟩ := h.pending _ rec (pending_of_opens hOpens).1
  exact ⟨rec, hOpens, hKey, hLeft, hUnused⟩

/-- Different pending records have different sources. -/
theorem key_of_source_eq {key key' : Bytes} {rec rec' : CommitRecord}
    (hKey : rec.key = key) (hKey' : rec'.key = key')
    (hLeft : LeftBy env.E blocks (source key) rec)
    (hLeft' : LeftBy env.E blocks (source key') rec') (hSource : source key = source key') :
    key = key' := by
  rw [hSource] at hLeft
  rw [← hKey, ← hKey', hLeft.unique hLeft']

/-- No two REVEALs use one COMMIT, with those of the next block. -/
theorem Accounted.once_add (h : Accounted env blocks s.commitStore log origin source)
    (hAccepted : validateBlock env order s b latest slotLeader = .ok staged) :
    Set.InjOn (extendOrigin env.E blocks.length origin source)
      (log ∪ newReveals env order s b blocks.length) := by
  -- an old and a new REVEAL differ, since the record was unused
  have hApart : ∀ r ∈ log, ∀ r' ∈ newReveals env order s b blocks.length,
      extendOrigin env.E blocks.length origin source r ≠
        extendOrigin env.E blocks.length origin source r' := by
    intro r hr r' hr'
    obtain ⟨rec, -, -, -, hUnused⟩ := h.found hAccepted hr'
    rw [h.extendOrigin_old hr, extendOrigin_new hr']
    exact hUnused r hr
  rintro r (hr | hr) r' (hr' | hr') hEq
  · rw [h.extendOrigin_old hr, h.extendOrigin_old hr'] at hEq
    exact h.once hr hr' hEq
  · exact absurd hEq (hApart r hr r' hr')
  · exact absurd hEq.symm (hApart r' hr' r hr)
  · obtain ⟨rec, -, hKey, hLeft, -⟩ := h.found hAccepted hr
    obtain ⟨rec', -, hKey', hLeft', -⟩ := h.found hAccepted hr'
    rw [extendOrigin_new hr, extendOrigin_new hr'] at hEq
    refine newReveals_ext hr hr' (eq_of_revealKey_eq hr.2.2.1 hr'.2.2.1 ?_)
    exact key_of_source_eq hKey hKey' hLeft hLeft' hEq

/-- The COMMITs of REVEALs, with those of the next block, stand in earlier blocks. -/
theorem Accounted.origin_lt (h : Accounted env blocks s.commitStore log origin source)
    (hAccepted : validateBlock env order s b latest slotLeader = .ok staged)
    {r : EffectiveReveal} (hr : r ∈ log ∪ newReveals env order s b blocks.length) :
    (extendOrigin env.E blocks.length origin source r).block < blocks.length := by
  rcases hr with hr | hr
  · obtain ⟨-, -, -, commitBlock, commit, hAt, -⟩ := h.redeems r hr
    rw [h.extendOrigin_old hr]
    exact hAt.lt
  · obtain ⟨rec, -, -, ⟨commitBlock, commit, hAt, -⟩, -⟩ := h.found hAccepted hr
    rw [extendOrigin_new hr]
    exact hAt.lt

/-- What is pending after a block was pending before it and not used in it, or is a COMMIT of
the block. -/
theorem Accounted.pending_add (h : Accounted env blocks s.commitStore log origin source)
    (hAccepted : validateBlock env order s b latest slotLeader = .ok staged) (key : Bytes) :
    ∃ p, ∀ rec,
      (installValidated env order b.transactions staged s).commitStore.getCommit key = some rec →
      rec.key = key ∧ LeftBy env.E (blocks ++ [b]) p rec ∧
        ∀ r ∈ log ∪ newReveals env order s b blocks.length,
          extendOrigin env.E blocks.length origin source r ≠ p := by
  obtain ⟨-, ⟨sh, hRun⟩, ⟨ledger, final, hLedger, hDomain, -, -, hCs⟩, -⟩ :=
    validateBlock_eq_ok hAccepted
  have hFrom : FromBlock b s.commitStore staged.cs := by
    rw [hCs]
    exact domainPass_invariant (fun st => FromBlock b s.commitStore st.cs)
      (fun tx hMem i st st' err hOld hApply => fromBlock_step hOld hMem hApply)
      (fromBlock_openCommits s.commitStore) hDomain
  have hGet : (installValidated env order b.transactions staged s).commitStore.getCommit key =
      if staged.cs.consumed key || staged.cs.purged key then none
      else (staged.cs.added[key]?).or (s.commitStore.getCommit key) :=
    CommitOverlay.getCommit_commit staged.cs s.commitStore key
  rw [hGet]
  by_cases hGone : (staged.cs.consumed key || staged.cs.purged key) = true
  · rw [if_pos hGone]
    exact ⟨source key, fun rec hNone => absurd hNone (by simp)⟩
  · rw [if_neg hGone]
    cases hAdded : staged.cs.added[key]? with
    | some added =>
      obtain ⟨hKey, tx, hMem, hType, hRec⟩ := hFrom.added key added hAdded
      obtain ⟨j, hj⟩ := List.getElem?_of_mem hMem
      obtain ⟨sh₁, sh₂, hValid⟩ := foldlM_mem hRun hMem
      refine ⟨⟨blocks.length, j⟩, fun rec hSome => ?_⟩
      obtain rfl : added = rec := by simpa using hSome
      refine ⟨hKey, ⟨b, tx, .last hj, hType, ?_, hRec⟩, fun r hr hEq => ?_⟩
      · refine Validation.verifySignature_of_validateTx hValid fun hOwnerless => ?_
        exact absurd ((Validation.type_of_ownerless hValid hOwnerless).symm.trans hType) (by decide)
      · have hLt := h.origin_lt hAccepted hr
        rw [hEq] at hLt
        exact absurd hLt (Nat.lt_irrefl _)
    | none =>
      refine ⟨source key, fun rec hSome => ?_⟩
      obtain ⟨hKey, hLeft, hUnused⟩ := h.pending key rec (by simpa using hSome)
      refine ⟨hKey, hLeft.append, ?_⟩
      rintro r (hr | hr) hEq
      · rw [h.extendOrigin_old hr] at hEq
        exact hUnused r hr hEq
      · -- a new REVEAL that used this record would have consumed it
        obtain ⟨rec', -, hKey', hLeft', -⟩ := h.found hAccepted hr
        rw [extendOrigin_new hr] at hEq
        have hSame := key_of_source_eq hKey' hKey hLeft' hLeft hEq
        have hLt : r.place.tx < b.transactions.length :=
          (List.getElem?_eq_some_iff.mp hr.2.2.1.getElem?).1
        have hConsumed := consumed_of_takesEffect hr.2.2.1 hLedger
          (List.append_nil b.transactions).symm hLt hDomain
        rw [hSame, ← hCs] at hConsumed
        exact hGone (by simp [hConsumed])

/-- One more accepted block. -/
theorem Accounted.add (h : Accounted env blocks s.commitStore log origin source)
    (hAccepted : validateBlock env order s b latest slotLeader = .ok staged)
    (hSlots : ∀ b' ∈ blocks, b'.slotNumber < b.slotNumber) :
    ∃ origin' source', Accounted env (blocks ++ [b])
      (installValidated env order b.transactions staged s).commitStore
      (log ∪ newReveals env order s b blocks.length) origin' source' := by
  choose source' hPending using h.pending_add hAccepted
  refine ⟨extendOrigin env.E blocks.length origin source, source', hPending,
    h.once_add hAccepted, ?_⟩
  rintro r (hr | hr)
  · obtain ⟨hAt, hType, hLt, commitBlock, commit, hCommit, hRedeems⟩ := h.redeems r hr
    rw [h.extendOrigin_old hr]
    exact ⟨hAt.append, hType, hLt, commitBlock, commit, hCommit.append, hRedeems⟩
  · obtain ⟨rec, hOpens, hKey, hLeft, -⟩ := h.found hAccepted hr
    obtain ⟨commitBlock, commit, hCommit, hRedeems⟩ :=
      redeems_of_opens hr.2.1 hr.2.2.2 hOpens hKey hLeft hSlots
    have hLt := h.origin_lt hAccepted (.inr hr)
    rw [extendOrigin_new hr] at hLt ⊢
    obtain ⟨hBlock, hB, hEffect, -⟩ := hr
    refine ⟨?_, hEffect.1, hBlock ▸ hLt, commitBlock, commit, hCommit.append, hRedeems⟩
    obtain ⟨⟨_, j⟩, _, _, _⟩ := r
    dsimp only at hBlock hB hEffect ⊢
    subst hBlock hB
    exact .last hEffect.getElem?

end Accounting

end Step

/-! ## Whole chains -/

theorem exists_accounted {env : Env} {blocks : List Block} {s : ChainState}
    {log : Set EffectiveReveal} (hLog : RevealLog env blocks s log) :
    ∃ origin source, Accounted env blocks s.commitStore log origin source := by
  induction hLog with
  | genesis block =>
    refine ⟨fun _ => ⟨0, 0⟩, fun _ => ⟨0, 0⟩, ?_, Set.injOn_empty _, fun r hr => hr.elim⟩
    intro key rec hGet
    simp [genesisState, CommitStore.getCommit] at hGet
  | @add blocks s log latest b order slotLeader staged chain tip accepted ih =>
    obtain ⟨origin, source, h⟩ := ih
    have hSlot := (checkHeader_eq_ok (validateBlock_eq_ok accepted).1).2.1
    exact h.add accepted fun b' hb' =>
      Int64.lt_of_le_of_lt (slotNumber_le_of_chain chain.chain tip b' hb') hSlot

/-- The sample chain has a log with the REVEALs of each of its blocks. -/
theorem revealLog_registryBlocks {n : Nat} (hn : n ≤ 4) :
    ∃ log, RevealLog StandIn.registryEnv (StandIn.registryBlocks n) (StandIn.registryChain n).1
        log ∧
      ∀ i < n, newReveals StandIn.registryEnv (.ascending _ _) (StandIn.registryChain i).1
        (StandIn.registryChain (i + 1)).2 (i + 1) ⊆ log := by
  induction n with
  | zero => exact ⟨_, .genesis _, fun i hi => absurd hi (Nat.not_lt_zero i)⟩
  | succ n ih =>
    obtain ⟨log, hLog, hOld⟩ := ih (by omega)
    obtain ⟨staged, hStaged, hState⟩ := StandIn.registryChain_succ hn
    have hLength : (StandIn.registryBlocks n).length = n + 1 := by
      simp [StandIn.registryBlocks]
    rw [StandIn.registryBlocks_succ, hState]
    refine ⟨_, .add hLog (StandIn.getLast?_registryBlocks n) hStaged, fun i hi => ?_⟩
    rcases Nat.lt_succ_iff_lt_or_eq.mp hi with hLt | rfl
    · exact (hOld i hLt).trans Set.subset_union_left
    · rw [hLength]
      exact Set.subset_union_right

/-- A block with one transaction, evaluated. -/
theorem takesEffect_single {env : Env} {order : JournalOrder} {s : ChainState} {b : Block}
    {tx : Transaction} (hTxs : b.transactions = [tx]) (hType : tx.type = .reveal)
    (hEffect : ((ledgerPass b.transactions s.ledger).toOption.bind fun ledger =>
      (applyDomainMutations env.E (env.position order b.slotNumber b.index 0) tx
        (domainStart s b ledger)).toOption.map Prod.snd) = some none) :
    TakesEffect env order s b 0 tx := by
  cases hLedger : ledgerPass b.transactions s.ledger with
  | error p =>
    rw [hLedger] at hEffect
    cases hEffect
  | ok ledger =>
    cases hApply : applyDomainMutations env.E (env.position order b.slotNumber b.index 0) tx
        (domainStart s b ledger) with
    | error p =>
      rw [hLedger] at hEffect
      simp [Except.toOption, hApply] at hEffect
    | ok result =>
      obtain ⟨st', err⟩ := result
      obtain rfl : err = none := by
        rw [hLedger] at hEffect
        simpa [Except.toOption, hApply] using hEffect
      exact ⟨hType, [], [], ledger, domainStart s b ledger, st', hTxs, rfl, hLedger, rfl, hApply⟩

/-- The REVEAL in the block after the `i`-th of the sample chain. -/
def registryReveal (i : Nat) (tx : Transaction) : EffectiveReveal where
  place := ⟨i + 1, 0⟩
  block := (StandIn.registryChain (i + 1)).2
  tx := tx
  existing := (StandIn.registryChain i).1.index.getDomain StandIn.registryEnv.E tx.domainName

theorem registryReveal_mem {i : Nat} {tx : Transaction}
    (hEffect : TakesEffect StandIn.registryEnv (.ascending _ _) (StandIn.registryChain i).1
      (StandIn.registryChain (i + 1)).2 0 tx) :
    registryReveal i tx ∈ newReveals StandIn.registryEnv (.ascending _ _)
      (StandIn.registryChain i).1 (StandIn.registryChain (i + 1)).2 (i + 1) :=
  ⟨rfl, rfl, hEffect, rfl⟩

theorem takesEffect_registry_first : TakesEffect StandIn.registryEnv (.ascending _ _)
    (StandIn.registryChain 1).1 (StandIn.registryChain 2).2 0
    (StandIn.revealTx 2 1 1 [1] 1000) :=
  have hFacts : (StandIn.registryChain 2).2.transactions = [StandIn.revealTx 2 1 1 [1] 1000] ∧
      ((ledgerPass (StandIn.registryChain 2).2.transactions
        (StandIn.registryChain 1).1.ledger).toOption.bind fun ledger =>
          (applyDomainMutations StandIn.registryEnv.E (StandIn.registryEnv.position (.ascending _ _)
            (StandIn.registryChain 2).2.slotNumber (StandIn.registryChain 2).2.index 0)
            (StandIn.revealTx 2 1 1 [1] 1000) (domainStart (StandIn.registryChain 1).1
              (StandIn.registryChain 2).2 ledger)).toOption.map Prod.snd) = some none := by
    decide +kernel
  takesEffect_single hFacts.1 rfl hFacts.2

theorem transactions_registryBlocks : ∀ b ∈ StandIn.registryBlocks 4, ∀ tx ∈ b.transactions,
    tx.type = .reveal → tx ∈ [StandIn.revealTx 2 1 1 [1] 1000, StandIn.revealTx 5 4 4 [2] 2000] := by
  decide +kernel

end Bdns.Safety
