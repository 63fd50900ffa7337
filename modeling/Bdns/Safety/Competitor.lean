import Bdns.Safety.Insertion

/-!
# A competitor's COMMIT

Registry A commits to a hash and later reveals. A competitor puts a COMMIT into a block before
A's. With a copy of A's hash it shuts A out: A's own COMMIT is then a duplicate, and A's REVEAL
finds the record of another key. With any other hash it does not, as long as the two runs can be
compared at all. The two runs are followed block by block [`Diverged`], and a COMMIT or REVEAL of
another key that passes at a place of the first run passes at the place of the second run that
faces it [`Facing`].
-/

namespace Bdns.Safety

open Lib Blockchain Network Index Validation

/-! ## One block in both runs -/

/-- The parts of a header that the transactions of a block are checked against. -/
structure SameHeader (b b' : Block) : Prop where
  index : b'.index = b.index
  slotNumber : b'.slotNumber = b.slotNumber
  slotLeader : b'.slotLeader = b.slotLeader

instance (b b' : Block) : Decidable (SameHeader b b') :=
  decidable_of_iff
    (b'.index = b.index ∧ b'.slotNumber = b.slotNumber ∧ b'.slotLeader = b.slotLeader)
    ⟨fun h => ⟨h.1, h.2.1, h.2.2⟩, fun h => ⟨h.index, h.slotNumber, h.slotLeader⟩⟩

/-- Every BUY of one of the keys finds its price on the account when it is applied. -/
def BuysCovered (env : Env) (order : JournalOrder) (s : ChainState) (b : Block)
    (keys : List Bytes) : Prop :=
  ∀ ledger, ledgerPass b.transactions s.ledger = .ok ledger →
    ∀ before tx after st, b.transactions = before ++ tx :: after →
      Meets env order s b ledger before st → tx.type = .buy → tx.ownerKey ∈ keys →
        st.im.getListPrice env.E tx.domainName ≤ st.ledger.getBalance (hexEncode tx.ownerKey)

/-- A block of the first run and one of the second. `place` says at which position of the second
block the transactions of the first stand. -/
structure Alongside (env : Env) (c : Transaction) (slotLeader : Bytes) (place : Nat → Nat)
    (order order' : JournalOrder) (s s' : ChainState) (b b' : Block) : Prop where
  header : SameHeader b b'
  walks : ∀ i, WalkAlike (order.run i) (order'.run (place i))
  fits : s.ledger.supply + c.fee.toNat < 2 ^ 64
  fits' : s'.ledger.supply < 2 ^ 64
  buys : BuysCovered env order s b [c.ownerKey, slotLeader]
  buys' : BuysCovered env order' s' b' [c.ownerKey, slotLeader]

/-- The state of the first run and that of the second. -/
structure Behind (c : Transaction) (slotLeader : Bytes) (s s' : ChainState) : Prop where
  ledger : Charged c slotLeader s.ledger s'.ledger
  index : ∃ txLocations, s'.index = relocated s.index txLocations
  commits : ∀ k ≠ hexEncode c.commitHash, s'.commitStore.getCommit k = s.commitStore.getCommit k
  stakes : s'.stakes = s.stakes

section Block

variable {env : Env} {c : Transaction} {slotLeader : Bytes} {place : Nat → Nat}
  {order order' : JournalOrder} {s s' : ChainState} {b b' : Block} {staged staged' : Staged}

/-- The domain pass of the second block in terms of the first header. -/
theorem SameHeader.meets_iff (h : SameHeader b b') {ledger : BalanceLedger}
    {before : List Transaction} {st : DomainState} :
    Meets env order s b' ledger before st ↔
      domainPass env order b.slotNumber b.index before (domainStart s b' ledger) = .ok st := by
  unfold Meets
  rw [h.slotNumber, h.index]

/-- One transaction of both blocks in the two domain passes. -/
theorem Alongside.sideBySide (hAlong : Alongside env c slotLeader place order order' s s' b b')
    {ledger ledger' : BalanceLedger} (hLedger : ledgerPass b.transactions s.ledger = .ok ledger)
    (hLedger' : ledgerPass b'.transactions s'.ledger = .ok ledger')
    {before before' after after' : List Transaction} {tx : Transaction} {st st' : DomainState}
    (hSplit : b.transactions = before ++ tx :: after)
    (hSplit' : b'.transactions = before' ++ tx :: after')
    (hPlace : place before.length = before'.length)
    (hMeets : Meets env order s b ledger before st)
    (hMeets' : Meets env order' s' b' ledger' before' st')
    (hHash : hexEncode c.commitHash ∉ commitKeys env.E tx)
    (hAlike : PassAlike c slotLeader st st') :
    SideBySide Eq (Charged c slotLeader) (OffKey (hexEncode c.commitHash)) env.E
      (env.position order b.slotNumber b.index before.length)
      (env.position order' b.slotNumber b.index before'.length) tx tx st st' := by
  refine sideBySide_insertion (hPlace ▸ hAlong.walks before.length) hAlike hHash fun hType => ?_
  by_cases hKey : tx.ownerKey ∈ [c.ownerKey, slotLeader]
  · -- the accounts that differ: covered in both runs
    have hCovered := hAlong.buys ledger hLedger before tx after st hSplit hMeets hType hKey
    have hCovered' := hAlong.buys' ledger' hLedger' before' tx after' st' hSplit' hMeets' hType hKey
    rw [hAlike.im.getListPrice_eq] at hCovered'
    exact iff_of_true hCovered hCovered'
  · have hSigner : hexEncode tx.ownerKey ≠ hexEncode c.ownerKey := fun hEq =>
      hKey (by simp [hexEncode_injective hEq])
    have hLeader : hexEncode tx.ownerKey ≠ hexEncode slotLeader := fun hEq =>
      hKey (by simp [hexEncode_injective hEq])
    rw [hAlike.ledger.balance_eq hSigner hLeader]

/-- What the two blocks have staged is installed. -/
theorem Behind.install (hAlong : Alongside env c slotLeader place order order' s s' b b')
    (hLength : place b.transactions.length = b'.transactions.length)
    (hNext : place (b.transactions.length + 1) = b'.transactions.length + 1)
    (hIndex : ∃ txLocations, s'.index = relocated s.index txLocations)
    (hCommits : ∀ k ≠ hexEncode c.commitHash,
      s'.commitStore.getCommit k = s.commitStore.getCommit k)
    (hPassed : PassAlike c slotLeader ⟨staged.ledger, staged.im, staged.cs⟩
      ⟨staged'.ledger, staged'.im, staged'.cs⟩)
    (hStakes : staged'.stakes = staged.stakes) :
    Behind c slotLeader (installValidated env order b.transactions staged s)
      (installValidated env order' b'.transactions staged' s') where
  ledger := hPassed.ledger
  index := by
    have hFirst := hPassed.im.commit (E := env.E) (order.perm _) (order'.perm _)
      (hLength ▸ hAlong.walks b.transactions.length) hIndex
    exact hPassed.im.commit (order.perm _) (order'.perm _)
      (hNext ▸ hAlong.walks (b.transactions.length + 1)) hFirst
  commits := hPassed.cs.commit hCommits
  stakes := hStakes

/-- The domain passes over the block without and with the COMMIT: before it, over it and after
it. -/
theorem passAlike_insert {pre post : List Transaction} (hType : c.type = .commit)
    (hTxs : b.transactions = pre ++ post) (hTxs' : b'.transactions = pre ++ c :: post)
    (hAlong : Alongside env c slotLeader (fun i => if i < pre.length then i else i + 1)
      order order' s s' b b')
    (hHash : ∀ tx ∈ pre ++ post, hexEncode c.commitHash ∉ commitKeys env.E tx)
    {ledger ledger' : BalanceLedger} (hLedger : ledgerPass b.transactions s.ledger = .ok ledger)
    (hLedger' : ledgerPass b'.transactions s'.ledger = .ok ledger')
    (hStart : PassAlike c slotLeader (domainStart s b ledger) (domainStart s' b' ledger'))
    {final final' : DomainState} (hPass : Meets env order s b ledger (pre ++ post) final)
    (hPass' : Meets env order' s' b' ledger' (pre ++ c :: post) final') :
    PassAlike c slotLeader final final' := by
  obtain ⟨mid, hMid⟩ := domainPass_before hPass
  obtain ⟨mid', next', err, hMid', hCommit, hNext'⟩ := domainPass_split rfl hPass'
  have hFirst : PassAlike c slotLeader mid mid' := by
    refine @domainPass_beside env order order' b.slotNumber b.index (domainStart s b ledger)
      (domainStart s' b' ledger') _ _ mid mid' c slotLeader [] [] pre ?_ rfl rfl hStart hMid
      (hAlong.header.meets_iff.mp hMid')
    intro middle tx after st st' hSplit hMeets hMeets'
    have hEarly : ([] ++ middle).length < pre.length := by
      rw [hSplit]
      simp
    have hAt : b.transactions = ([] ++ middle) ++ tx :: (after ++ post) := by simp [hTxs, hSplit]
    have hAt' : b'.transactions = ([] ++ middle) ++ tx :: (after ++ c :: post) := by
      simp [hTxs', hSplit]
    exact hAlong.sideBySide hLedger hLedger' hAt hAt' (if_pos hEarly) hMeets
      (hAlong.header.meets_iff.mpr hMeets') (hHash tx (by simp [hSplit]))
  refine @domainPass_beside env order order' b.slotNumber b.index (domainStart s b ledger)
    (domainStart s' b' ledger') _ _ final final' c slotLeader pre (pre ++ [c]) post ?_ hMid
    (hAlong.header.meets_iff.mp hNext') (PassAlike.applyCommit hFirst hType hCommit) hPass
    (hAlong.header.meets_iff.mp (by simpa using hPass'))
  intro middle tx after st st' hSplit hMeets hMeets'
  have hAt : b.transactions = (pre ++ middle) ++ tx :: after := by simp [hTxs, hSplit]
  have hAt' : b'.transactions = (pre ++ [c] ++ middle) ++ tx :: after := by simp [hTxs', hSplit]
  have hLate : ¬ (pre ++ middle).length < pre.length := by simp
  refine hAlong.sideBySide hLedger hLedger' hAt hAt' ?_ hMeets (hAlong.header.meets_iff.mpr hMeets')
    (hHash tx (by simp [hSplit]))
  rw [if_neg hLate]
  simp only [List.length_append, List.length_singleton]
  omega

/-- The block that holds the COMMIT in the second run. -/
theorem behind_insert {pre post : List Transaction} (hType : c.type = .commit)
    (hTxs : b.transactions = pre ++ post) (hTxs' : b'.transactions = pre ++ c :: post)
    (hLeader : b.slotLeader = slotLeader)
    (hAlong : Alongside env c slotLeader (fun i => if i < pre.length then i else i + 1)
      order order' s s b b')
    {tip tip' : Block} {key key' : Bytes}
    (hBlock : validateBlock env order s b tip key = .ok staged)
    (hBlock' : validateBlock env order' s b' tip' key' = .ok staged') :
    Behind c slotLeader (installValidated env order b.transactions staged s)
      (installValidated env order' b'.transactions staged' s) := by
  obtain ⟨-, ⟨sh, hRun⟩, ⟨ledger, final, hLedger, hPass, hStagedLedger, hStagedIm, hStagedCs⟩,
    hStakes⟩ := validateBlock_eq_ok hBlock
  obtain ⟨-, ⟨sh', hRun'⟩, ⟨ledger', final', hLedger', hPass', hStagedLedger', hStagedIm',
    hStagedCs'⟩, hStakes'⟩ := validateBlock_eq_ok hBlock'
  have hSame : blockValidation env s b' = blockValidation env s b := by
    unfold blockValidation
    rw [hAlong.header.index, hAlong.header.slotNumber, hAlong.header.slotLeader]
  rw [hSame, hTxs'] at hRun'
  -- the COMMIT has a key, and nobody else in the block uses its hash
  have hKey : c.ownerKey.length ≠ 0 := by
    intro hNone
    obtain ⟨sh₁, sh₂, -, hStep⟩ := run_split hRun' rfl
    exact absurd ((type_of_ownerless hStep hNone).symm.trans hType) (by decide)
  have hHash : ∀ tx ∈ pre ++ post, hexEncode c.commitHash ∉ commitKeys env.E tx :=
    commitKeys_apart hRun' (by simp [commitKeys, hType])
  have hFit : s.ledger.supply < 2 ^ 64 := hAlong.fits'
  have hStart : Charged c slotLeader (creditFees b.transactions b.slotLeader ledger)
      (creditFees b'.transactions b'.slotLeader ledger') := by
    have hMoves := (backed_init (blockValidation env s b)).ledgerPass_eq_moves hFit hRun
    have hMoves' := (backed_init (blockValidation env s b)).ledgerPass_eq_moves hFit hRun'
    rw [← hTxs'] at hMoves'
    obtain rfl := Except.ok.inj (hMoves.symm.trans hLedger)
    obtain rfl := Except.ok.inj (hMoves'.symm.trans hLedger')
    rw [hAlong.header.slotLeader, hLeader, hTxs, hTxs']
    exact charged_insert hType hKey pre post s.ledger
  have hStores : PassAlike c slotLeader (domainStart s b ledger) (domainStart s b' ledger') := by
    refine ⟨.refl _, hStart, ?_⟩
    unfold domainStart
    rw [hAlong.header.index]
    exact .refl _
  have hPassed : PassAlike c slotLeader final final' := by
    refine passAlike_insert hType hTxs hTxs' hAlong hHash hLedger hLedger' hStores ?_ ?_
    · rw [← hTxs]
      exact hPass
    · rw [← hTxs']
      exact hPass'
  have hStaged : PassAlike c slotLeader ⟨staged.ledger, staged.im, staged.cs⟩
      ⟨staged'.ledger, staged'.im, staged'.cs⟩ := by
    rw [hStagedLedger, hStagedIm, hStagedCs, hStagedLedger', hStagedIm', hStagedCs']
    exact hPassed
  rw [hAlong.header.slotNumber, hTxs', stakePass_insert hType, ← hTxs] at hStakes'
  have hLengths : b'.transactions.length = b.transactions.length + 1 := by
    simp only [hTxs, hTxs', List.length_append, List.length_cons]
    omega
  have hLate : ∀ n, b.transactions.length ≤ n → ¬ n < pre.length := by
    intro n hn
    simp only [hTxs, List.length_append] at hn
    omega
  refine .install hAlong ?_ ?_ ⟨s.index.txLocations, rfl⟩ (fun _ _ => rfl) hStaged
    (Except.ok.inj (hStakes'.symm.trans hStakes))
  · rw [if_neg (hLate _ (Nat.le_refl _)), hLengths]
  · rw [if_neg (hLate _ (Nat.le_succ _)), hLengths]

/-- The two validations of a later block. -/
theorem Behind.rivals (h : Behind c slotLeader s s') (hHeader : SameHeader b b')
    (hFit : s.ledger.supply + c.fee.toNat < 2 ^ 64) :
    Rivals (hexEncode c.ownerKey) (hexEncode c.commitHash) (blockValidation env s b)
      (blockValidation env s' b') where
  same := by
    refine ⟨s'.ledger, openCommits s'.commitStore b'.index, ?_⟩
    obtain ⟨txLocations, hIndex⟩ := h.index
    unfold blockValidation
    rw [hHeader.slotNumber, hHeader.slotLeader, h.stakes, hIndex]
    rfl
  nonce k hk := by
    have hNonce := h.ledger.nonce k
    rw [if_neg hk.symm, add_zero] at hNonce
    exact hNonce
  balance k hk := h.ledger.balance_le hFit hk
  commits k hk := by
    have hSame := (offKey_openCommits h.commits b.index).getCommit hk
    unfold blockValidation
    dsimp only
    rw [hHeader.index]
    exact hSame

/-- A later block, with the same transactions in both runs. -/
theorem Behind.block (h : Behind c slotLeader s s') (hTxs : b'.transactions = b.transactions)
    (hAlong : Alongside env c slotLeader id order order' s s' b b')
    (hHash : ∀ tx ∈ b.transactions, hexEncode c.commitHash ∉ commitKeys env.E tx)
    {tip tip' : Block} {key key' : Bytes}
    (hBlock : validateBlock env order s b tip key = .ok staged)
    (hBlock' : validateBlock env order' s' b' tip' key' = .ok staged') :
    Behind c slotLeader (installValidated env order b.transactions staged s)
      (installValidated env order' b'.transactions staged' s') := by
  obtain ⟨-, ⟨sh, hRun⟩, ⟨ledger, final, hLedger, hPass, hStagedLedger, hStagedIm, hStagedCs⟩,
    hStakes⟩ := validateBlock_eq_ok hBlock
  obtain ⟨-, ⟨sh', hRun'⟩, ⟨ledger', final', hLedger', hPass', hStagedLedger', hStagedIm',
    hStagedCs'⟩, hStakes'⟩ := validateBlock_eq_ok hBlock'
  have hStart : PassAlike c slotLeader (domainStart s b ledger) (domainStart s' b' ledger') := by
    have hFit : s.ledger.supply < 2 ^ 64 := Nat.lt_of_le_of_lt (Nat.le_add_right _ _) hAlong.fits
    have hMoves := (backed_init (blockValidation env s b)).ledgerPass_eq_moves hFit hRun
    have hMoves' := (backed_init (blockValidation env s' b')).ledgerPass_eq_moves hAlong.fits' hRun'
    obtain rfl := Except.ok.inj (hMoves.symm.trans hLedger)
    obtain rfl := Except.ok.inj (hMoves'.symm.trans hLedger')
    obtain ⟨txLocations, hIndex⟩ := h.index
    unfold domainStart
    rw [hTxs, hAlong.header.slotLeader, hAlong.header.index, hIndex]
    exact ⟨.fresh _ _, (h.ledger.foldl_shift _).creditFees _ _, offKey_openCommits h.commits _⟩
  have hPassed : PassAlike c slotLeader final final' := by
    refine @domainPass_beside env order order' b.slotNumber b.index (domainStart s b ledger)
      (domainStart s' b' ledger') _ _ final final' c slotLeader [] [] b.transactions ?_ rfl rfl
      hStart hPass (hAlong.header.meets_iff.mp (hTxs ▸ hPass'))
    intro middle tx after st st' hSplit hMeets hMeets'
    have hAt : b.transactions = ([] ++ middle) ++ tx :: after := by simp [hSplit]
    exact hAlong.sideBySide hLedger hLedger' hAt (hTxs.trans hAt) rfl hMeets
      (hAlong.header.meets_iff.mpr hMeets') (hHash tx (by simp [hSplit]))
  have hStaged : PassAlike c slotLeader ⟨staged.ledger, staged.im, staged.cs⟩
      ⟨staged'.ledger, staged'.im, staged'.cs⟩ := by
    rw [hStagedLedger, hStagedIm, hStagedCs, hStagedLedger', hStagedIm', hStagedCs']
    exact hPassed
  rw [hAlong.header.slotNumber, hTxs, h.stakes] at hStakes'
  refine .install hAlong ?_ ?_ h.index h.commits hStaged
    (Except.ok.inj (hStakes'.symm.trans hStakes))
  · rw [hTxs, id]
  · rw [hTxs, id]

end Block

/-! ## The two runs -/

/-- The states that two runs from one state reach after the same number of blocks. One block of
the second run holds the COMMIT `c` in addition; the leader of that block is `slotLeader`. Nobody
uses the hash of `c` in the later blocks. -/
inductive Diverged (env : Env) (c : Transaction) (slotLeader : Bytes) :
    ChainState → ChainState → Prop
  | inserted {s : ChainState} {b b' tip tip' : Block} {order order' : JournalOrder}
      {key key' : Bytes} {staged staged' : Staged} (pre post : List Transaction)
      (hTxs : b.transactions = pre ++ post) (hTxs' : b'.transactions = pre ++ c :: post)
      (hLeader : b.slotLeader = slotLeader)
      (hAlong : Alongside env c slotLeader (fun i => if i < pre.length then i else i + 1)
        order order' s s b b')
      (hBlock : validateBlock env order s b tip key = .ok staged)
      (hBlock' : validateBlock env order' s b' tip' key' = .ok staged') :
      Diverged env c slotLeader (installValidated env order b.transactions staged s)
        (installValidated env order' b'.transactions staged' s)
  | later {s s' : ChainState} {b b' tip tip' : Block} {order order' : JournalOrder}
      {key key' : Bytes} {staged staged' : Staged} (hBefore : Diverged env c slotLeader s s')
      (hTxs : b'.transactions = b.transactions)
      (hHash : ∀ tx ∈ b.transactions, hexEncode c.commitHash ∉ commitKeys env.E tx)
      (hAlong : Alongside env c slotLeader id order order' s s' b b')
      (hBlock : validateBlock env order s b tip key = .ok staged)
      (hBlock' : validateBlock env order' s' b' tip' key' = .ok staged') :
      Diverged env c slotLeader (installValidated env order b.transactions staged s)
        (installValidated env order' b'.transactions staged' s')

theorem Diverged.behind {env : Env} {c : Transaction} {slotLeader : Bytes} {s s' : ChainState}
    (h : Diverged env c slotLeader s s') (hType : c.type = .commit) : Behind c slotLeader s s' := by
  induction h with
  | inserted pre post hTxs hTxs' hLeader hAlong hBlock hBlock' =>
    exact behind_insert hType hTxs hTxs' hLeader hAlong hBlock hBlock'
  | later _ hTxs hHash hAlong hBlock hBlock' ih =>
    exact ih.block hTxs hAlong hHash hBlock hBlock'

/-- The same place in the two runs: a validation and the transactions that stand before the place
in its block. It is in the block of `c`, behind `c`, or in a later block. -/
inductive Facing (env : Env) (c : Transaction) (slotLeader : Bytes) :
    Validation → List Transaction → Validation → List Transaction → Prop
  | block {s : ChainState} {b b' : Block} (hHeader : SameHeader b b')
      (pre middle : List Transaction) :
      Facing env c slotLeader (blockValidation env s b) (pre ++ middle) (blockValidation env s b')
        (pre ++ c :: middle)
  | later {s s' : ChainState} {b b' : Block} (h : Diverged env c slotLeader s s')
      (hHeader : SameHeader b b') (hFit : s.ledger.supply + c.fee.toNat < 2 ^ 64)
      (before : List Transaction) :
      Facing env c slotLeader (blockValidation env s b) before (blockValidation env s' b') before

/-- The COMMIT stands: it is in the block before the place, or still pending. -/
def Stands (c : Transaction) (V : Validation) (before : List Transaction) : Prop :=
  c ∈ before ∨ ∃ rec, V.cs.getCommit (hexEncode c.commitHash) = some rec ∧
    rec.committerPK = c.ownerKey

section Facing

variable {env : Env} {c tx : Transaction} {slotLeader : Bytes} {V V' : Validation}
  {before before' : List Transaction} {sh sh' : Shadow}

/-- The validations and shadows at places that face each other. -/
theorem Facing.ahead (h : Facing env c slotLeader V before V' before') (hType : c.type = .commit)
    (hRun : V.run before = .ok sh) (hRun' : V'.run before' = .ok sh') :
    Rivals (hexEncode c.ownerKey) (hexEncode c.commitHash) V V' ∧
      Ahead (hexEncode c.ownerKey) (hexEncode c.commitHash) V V' sh sh' := by
  cases h with
  | @block s b b' hHeader pre middle =>
    have hSame : blockValidation env s b' = blockValidation env s b := by
      unfold blockValidation
      rw [hHeader.index, hHeader.slotNumber, hHeader.slotLeader]
    rw [hSame] at hRun' ⊢
    have hRivals : Rivals (hexEncode c.ownerKey) (hexEncode c.commitHash)
      (blockValidation env s b) (blockValidation env s b) := .refl _
    refine ⟨hRivals, ?_⟩
    obtain ⟨sh₁, hPre, hMiddle⟩ := foldlM_append_eq_ok.mp hRun
    obtain ⟨sh₁', hPre', hRest'⟩ := foldlM_append_eq_ok.mp hRun'
    rw [List.foldlM_cons] at hRest'
    obtain ⟨sh₂', hCommit, hMiddle'⟩ := bind_eq_ok.mp hRest'
    have hFirst := hRivals.init.foldlM hRivals hPre hPre'
    exact (hFirst.insert hType rfl rfl hCommit).foldlM hRivals hMiddle hMiddle'
  | later hDiverged hHeader hFit =>
    have hRivals := @Behind.rivals env _ _ _ _ _ _ (hDiverged.behind hType) hHeader hFit
    exact ⟨hRivals, hRivals.init.foldlM hRivals hRun hRun'⟩

theorem Facing.env_eq (h : Facing env c slotLeader V before V' before') :
    V.E = env.E ∧ V'.E = env.E := by
  cases h <;> exact ⟨rfl, rfl⟩

/-- While the COMMIT stands, no transaction of another key uses its hash. -/
theorem rejected_of_stands (hType : c.type = .commit) (hStands : Stands c V before)
    (hOther : tx.ownerKey ≠ c.ownerKey) (hHash : hexEncode c.commitHash ∈ commitKeys V.E tx) :
    V.run (before ++ [tx]) ≠ .ok sh := by
  intro hRun
  rcases hStands with hMem | ⟨rec, hPending, hPK⟩
  · obtain ⟨pre, post, rfl⟩ := List.append_of_mem hMem
    rw [List.append_assoc, List.cons_append] at hRun
    have hOwn : hexEncode c.commitHash ∈ commitKeys V.E c := by simp [commitKeys, hType]
    exact commitKeys_apart hRun hOwn tx (by simp) hHash
  · obtain ⟨mid, -, hStep⟩ := run_concat.mp hRun
    exact rejected_of_pending hPending hHash (hPK ▸ hOther) _ hStep

end Facing

/-- A competitor's COMMIT with a hash of its own blocks no other registration. A COMMIT or REVEAL
of another key that passes at a place of the first run passes at the place of the second that
faces it, if the COMMIT has another hash; and only then, while the COMMIT stands. -/
theorem competitor_blocks_iff {env : Env} {c tx : Transaction} {slotLeader : Bytes}
    {V V' : Validation} {before before' : List Transaction} {sh sh' : Shadow}
    (hCommit : c.type = .commit) (hFacing : Facing env c slotLeader V before V' before')
    (hPass : V.run (before ++ [tx]) = .ok sh) (hBefore' : V'.run before' = .ok sh')
    (hType : tx.type = .commit ∨ tx.type = .reveal) (hOther : tx.ownerKey ≠ c.ownerKey) :
    (hexEncode c.commitHash ∉ commitKeys env.E tx →
        ∃ final, V'.run (before' ++ [tx]) = .ok final) ∧
      (Stands c V' before' → hexEncode c.commitHash ∈ commitKeys env.E tx →
        ∀ final, V'.run (before' ++ [tx]) ≠ .ok final) := by
  constructor
  · intro hHash
    obtain ⟨mid, hBefore, hStep⟩ := run_concat.mp hPass
    obtain ⟨hRivals, hAhead⟩ := hFacing.ahead hCommit hBefore hBefore'
    have hKeys : hexEncode tx.ownerKey ≠ hexEncode c.ownerKey := fun hEq =>
      hOther (hexEncode_injective hEq)
    rw [← hFacing.env_eq.1] at hHash
    obtain ⟨final, hFinal⟩ := hAhead.passes hRivals hType hKeys hHash hStep
    exact ⟨final, run_concat.mpr ⟨sh', hBefore', hFinal⟩⟩
  · intro hStands hHash final
    rw [← hFacing.env_eq.2] at hHash
    exact rejected_of_stands hCommit hStands hOther hHash

/-! ### Two registries -/

def contestTip : Block :=
  { index := 0, slotNumber := 0, slotLeader := utf8 "registry", transactions := [], prevHash := [] }

/-- The block in which the first registry commits, after the COMMITs of a rival. -/
def contested (rival : List Transaction) : Block :=
  StandIn.extend swapEnv (StandIn.leader (utf8 "registry") 1) 1
    (rival ++ [StandIn.commitTx 1 0 [1]]) (genesisState swapEnv) contestTip

def afterContest (rival : List Transaction) : ChainState :=
  StandIn.accept swapEnv (utf8 "registry") (contested rival) (genesisState swapEnv) contestTip

/-- The block in which it reveals. -/
def contestReveal (rival : List Transaction) : Block :=
  StandIn.extend swapEnv (StandIn.leader (utf8 "registry") 4) 4 [StandIn.revealTx 3 1 1 [1] 1000]
    (afterContest rival) (contested rival)

/-- The second registry commits to the hash that it has seen. -/
def copyCommit : Transaction :=
  Blockchain.StandIn.signAs (utf8 "second")
    { tid := 2, type := .commit, ownerKey := utf8 "second", fee := 1,
      commitHash := (StandIn.commitTx 1 0 [1]).commitHash }

/-- A copy of the hash blocks the registry. Alone, its COMMIT and its REVEAL are accepted. After the
copy, which is accepted, its COMMIT is rejected. -/
theorem copied_hash_blocks_commit :
    copyCommit.type = .commit ∧ copyCommit.ownerKey ≠ (StandIn.commitTx 1 0 [1]).ownerKey ∧
      (∃ staged, validateBlock swapEnv (.ascending _ _) (genesisState swapEnv) (contested [])
        contestTip (utf8 "registry") = .ok staged) ∧
      (∃ staged, validateBlock swapEnv (.ascending _ _) (afterContest []) (contestReveal [])
        (contested []) (utf8 "registry") = .ok staged) ∧
      (∃ sh, (blockValidation swapEnv (genesisState swapEnv) (contested [copyCommit])).run
        [copyCommit] = .ok sh) ∧
      (blockValidation swapEnv (genesisState swapEnv) (contested [copyCommit])).run
        [copyCommit, StandIn.commitTx 1 0 [1]] = .error .reject ∧
      validateBlock swapEnv (.ascending _ _) (genesisState swapEnv) (contested [copyCommit])
        contestTip (utf8 "registry") = .error (.reject .transactions) := by
  refine ⟨by decide +kernel, by decide +kernel, exists_eq_ok (by decide +kernel),
    exists_eq_ok (by decide +kernel), exists_eq_ok (by decide +kernel),
    eq_error_of_map (by decide +kernel), eq_error_of_map (by decide +kernel)⟩

theorem buysCovered_of_no_buy {env : Env} {order : JournalOrder} {s : ChainState} {b : Block}
    {keys : List Bytes} (h : ∀ tx ∈ b.transactions, tx.type ≠ .buy) :
    BuysCovered env order s b keys := by
  intro ledger _ before tx after st hSplit _ hType
  exact absurd hType (h tx (by simp [hSplit]))

/-- The blocks of the two registries, the second with a hash of its own. -/
theorem contested_facts :
    (contested []).transactions = [StandIn.commitTx 1 0 [1]] ∧
      (contested [swapCommit]).transactions = [swapCommit, StandIn.commitTx 1 0 [1]] ∧
      (contested []).slotLeader = utf8 "registry" ∧
      (genesisState swapEnv).ledger.supply + swapCommit.fee.toNat < 2 ^ 64 ∧
      (afterContest []).ledger.supply + swapCommit.fee.toNat < 2 ^ 64 ∧
      (validateBlock swapEnv (.ascending _ _) (genesisState swapEnv) (contested []) contestTip
        (utf8 "registry")).isOk = true ∧
      (validateBlock swapEnv (.ascending _ _) (genesisState swapEnv) (contested [swapCommit])
        contestTip (utf8 "registry")).isOk = true ∧
      ((blockValidation swapEnv (afterContest []) (contestReveal [])).run
        [StandIn.revealTx 3 1 1 [1] 1000]).isOk = true := by
  decide +kernel

theorem sameHeaders_contest :
    SameHeader (contested []) (contested [swapCommit]) ∧
      SameHeader (contestReveal []) (contestReveal [swapCommit]) := by
  decide +kernel

theorem diverged_contest :
    Diverged swapEnv swapCommit (utf8 "registry") (afterContest [])
      (afterContest [swapCommit]) := by
  obtain ⟨hTxs, hTxs', hLeader, hFit, -, hOk, hOk', -⟩ := contested_facts
  obtain ⟨staged, hBlock⟩ := exists_eq_ok hOk
  obtain ⟨staged', hBlock'⟩ := exists_eq_ok hOk'
  have hBuys : ∀ tx ∈ (contested []).transactions, tx.type ≠ .buy := by
    rw [hTxs]
    decide +kernel
  have hBuys' : ∀ tx ∈ (contested [swapCommit]).transactions, tx.type ≠ .buy := by
    rw [hTxs']
    decide +kernel
  unfold afterContest
  rw [StandIn.accept_eq hBlock, StandIn.accept_eq hBlock']
  refine .inserted [] [StandIn.commitTx 1 0 [1]] hTxs hTxs' hLeader ?_ hBlock hBlock'
  exact ⟨sameHeaders_contest.1, fun _ _ _ hKeys => hKeys, hFit,
    Nat.lt_of_le_of_lt (Nat.le_add_right _ _) hFit, buysCovered_of_no_buy hBuys,
    buysCovered_of_no_buy hBuys'⟩

/-- The REVEAL of the first registry passes after the COMMIT of the second. -/
theorem competitor_blocks_iff_reveal :
    ∃ final, (blockValidation swapEnv (afterContest [swapCommit])
      (contestReveal [swapCommit])).run ([] ++ [StandIn.revealTx 3 1 1 [1] 1000]) = .ok final := by
  obtain ⟨-, -, -, -, hFit, -, -, hOk⟩ := contested_facts
  obtain ⟨sh, hPass⟩ := exists_eq_ok hOk
  have hFacing := Facing.later diverged_contest sameHeaders_contest.2 hFit []
  exact (competitor_blocks_iff (by decide +kernel) hFacing hPass rfl (by decide +kernel)
    (by decide +kernel)).1 (by decide +kernel)

end Bdns.Safety
