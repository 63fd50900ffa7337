import Bdns.Blockchain.Independence
import Bdns.Safety.Panics
import Bdns.Safety.Solvency

/-!
# Unrelated transactions commute

The pool hands transactions to the leader in the order of a Go map. Two neighbours of one list that
have different keys and meet in no domain, number or commit can be exchanged: each sees the same
shadow maps with or without the other before it, the maps after both are the same, so the rest of
the list fares the same. On the ledger, every operation of a transaction that can pay is an addition
of coins and nonces to one account, and additions commute.
-/

namespace Bdns.Safety

open Lib Blockchain Network Validation

/-- Two transactions of different keys that meet nowhere. A redeemed number of zero is none. -/
structure Unrelated (E : External) (a b : Transaction) : Prop where
  keys : a.ownerKey ≠ b.ownerKey
  signed : a.ownerKey ≠ [] ∧ b.ownerKey ≠ []
  proofs : a.type ≠ .equivocationProof ∧ b.type ≠ .equivocationProof
  domains : UsesDomain a → UsesDomain b → a.domainName ≠ b.domainName
  tids : a.tid ≠ b.tid
  redeemsTid : (a.redeemsTxID ≠ 0 → a.redeemsTxID ≠ b.tid) ∧
    (b.redeemsTxID ≠ 0 → b.redeemsTxID ≠ a.tid)
  redeemsSame : a.redeemsTxID ≠ 0 → b.redeemsTxID ≠ 0 → a.redeemsTxID ≠ b.redeemsTxID
  commits : ∀ c ∈ commitKeys E a, c ∉ commitKeys E b

theorem Unrelated.symm {E : External} {a b : Transaction} (h : Unrelated E a b) :
    Unrelated E b a where
  keys := h.keys.symm
  signed := h.signed.symm
  proofs := h.proofs.symm
  domains hb ha := (h.domains ha hb).symm
  tids := h.tids.symm
  redeemsTid := h.redeemsTid.symm
  redeemsSame hb ha := (h.redeemsSame ha hb).symm
  commits c hb ha := h.commits c ha hb

/-! ## The shadow maps -/

/-- All places that a transaction does not write. -/
def untouched (E : External) (tx : Transaction) : Footprint where
  keys := {k | k ≠ hexEncode tx.ownerKey}
  domains := {d | UsesDomain tx → d ≠ tx.domainName}
  tids := {tid | tid ≠ tx.tid ∧ (tid ≠ 0 → tid ≠ tx.redeemsTxID)}
  commits := {c | c ∉ commitKeys E tx}

theorem untouched_avoids (E : External) (tx : Transaction) : (untouched E tx).Avoids E tx where
  key hMem := hMem rfl
  domain hUses hMem := hMem hUses rfl
  tid hMem := hMem.1 rfl
  redeemed hRedeems hMem := hMem.2 hRedeems rfl
  commits _ hc hMem := hMem hc

theorem Unrelated.untouched_covers {E : External} {a b : Transaction} (h : Unrelated E a b) :
    (untouched E a).Covers E b where
  key hSame := h.keys (hexEncode_injective hSame).symm
  domain hb ha := (h.domains ha hb).symm
  redeemed hb := ⟨h.redeemsTid.2 hb, fun _ hSame => h.redeemsSame (hSame ▸ hb) hb hSame.symm⟩
  commits c hb ha := h.commits c ha hb

theorem eq_of_cover {α β : Type} {p q : Set α} {f g : α → β} (hCover : ∀ x, x ∈ p ∨ x ∈ q)
    (hp : ∀ x ∈ p, f x = g x) (hq : ∀ x ∈ q, f x = g x) : f = g := by
  funext x
  rcases hCover x with hx | hx
  · exact hp x hx
  · exact hq x hx

/-- Two shadows that differ neither outside of one transaction nor outside of an unrelated one, and
say the same about proofs, are one. -/
theorem eq_of_agree {E : External} {a b : Transaction} (h : Unrelated E a b) {sh sh' : Shadow}
    (ha : sh.Agree (untouched E a) sh') (hb : sh.Agree (untouched E b) sh')
    (hBurn : sh.coins.queueBurn = sh'.coins.queueBurn)
    (hOffences : sh.coins.equivocations = sh'.coins.equivocations) : sh = sh' := by
  have hKeys : ∀ k, k ∈ (untouched E a).keys ∨ k ∈ (untouched E b).keys := by
    intro k
    by_cases hk : k = hexEncode a.ownerKey
    · exact .inr fun hk' => h.keys (hexEncode_injective (hk.symm.trans hk'))
    · exact .inl hk
  have hDomains : ∀ d, d ∈ (untouched E a).domains ∨ d ∈ (untouched E b).domains := by
    intro d
    by_cases hd : UsesDomain a ∧ d = a.domainName
    · exact .inr fun hUses hd' => h.domains hd.1 hUses (hd.2.symm.trans hd')
    · exact .inl fun hUses hd' => hd ⟨hUses, hd'⟩
  have hTids : ∀ tid, tid ∈ (untouched E a).tids ∨ tid ∈ (untouched E b).tids := by
    intro tid
    by_contra hNeither
    rw [not_or] at hNeither
    obtain ⟨hA, hB⟩ := hNeither
    have hA' : tid = a.tid ∨ tid ≠ 0 ∧ tid = a.redeemsTxID := by
      by_contra hFree
      rw [not_or, not_and] at hFree
      exact hA hFree
    have hB' : tid = b.tid ∨ tid ≠ 0 ∧ tid = b.redeemsTxID := by
      by_contra hFree
      rw [not_or, not_and] at hFree
      exact hB hFree
    rcases hA' with rfl | ⟨hZero, rfl⟩ <;> rcases hB' with hSame | ⟨hZero', hSame⟩
    · exact h.tids hSame
    · exact h.redeemsTid.2 (hSame ▸ hZero') hSame.symm
    · exact h.redeemsTid.1 hZero hSame
    · exact h.redeemsSame hZero (hSame ▸ hZero) hSame
  have hCommits : ∀ c, c ∈ (untouched E a).commits ∨ c ∈ (untouched E b).commits := by
    intro c
    by_cases hc : c ∈ commitKeys E a
    · exact .inr (h.commits c hc)
    · exact .inl hc
  have hDomainMaps : sh.domains = sh'.domains := by
    have hSpent := eq_of_cover hTids ha.domains.spent hb.domains.spent
    have hTx := eq_of_cover hTids ha.domains.tx hb.domains.tx
    have hForSale := eq_of_cover hDomains ha.domains.forSale hb.domains.forSale
    have hRegistered := eq_of_cover hDomains ha.domains.registered hb.domains.registered
    have hOwner := eq_of_cover hDomains ha.domains.owner hb.domains.owner
    have hCommit := eq_of_cover hCommits ha.domains.commit hb.domains.commit
    rw [DomainShadow.mk.injEq]
    exact ⟨hSpent, hForSale, hRegistered, hOwner, hTx, hCommit⟩
  have hCoinMaps : sh.coins = sh'.coins := by
    have hNonce := eq_of_cover hKeys ha.coins.nonce hb.coins.nonce
    have hBalance := eq_of_cover hKeys ha.coins.balance hb.coins.balance
    have hStake := eq_of_cover hKeys ha.coins.stake hb.coins.stake
    have hPending := eq_of_cover hKeys ha.coins.pendingStake hb.coins.pendingStake
    rw [CoinShadow.mk.injEq]
    exact ⟨hNonce, hBalance, hStake, hPending, hBurn, hOffences⟩
  rw [Shadow.mk.injEq]
  exact ⟨hDomainMaps, hCoinMaps⟩

section Step

variable {V : Validation} {a b : Transaction}

/-- Only a proof writes to the maps of burned coins and of offences. -/
theorem offences_of_validateTx {sh sh' : Shadow} (hProof : a.type ≠ .equivocationProof)
    (h : V.validateTx sh a = .ok sh') :
    sh'.coins.queueBurn = sh.coins.queueBurn ∧ sh'.coins.equivocations = sh.coins.equivocations := by
  obtain ⟨-, -, hSame⟩ | ⟨-, -, -, -, balance, mid, hStep, -, hCoins⟩ := coins_of_validateTx h
  · rw [hSame]
    exact ⟨rfl, rfl⟩
  · rw [hCoins]
    cases hStep with
    | proof hType => exact absurd hType hProof
    | stake | unstake | other => exact ⟨rfl, rfl⟩

/-- Accepted in one order, accepted in the other, with the same shadow. -/
theorem validateTx_swap (h : Unrelated V.E a b) {sh shA shAB : Shadow}
    (hA : V.validateTx sh a = .ok shA) (hAB : V.validateTx shA b = .ok shAB) :
    ∃ shB, V.validateTx sh b = .ok shB ∧ V.validateTx shB a = .ok shAB := by
  -- `b` does not see `a`
  have hSeesB := validateTx_lockstep (V := V) h.proofs.2 h.untouched_covers
    (agree_validateTx (untouched_avoids V.E a) h.proofs.1 hA).symm
  obtain ⟨shB, hB, hAgreeB⟩ := hSeesB.exists_ok hAB
  -- `a` does not see `b`
  have hSeesA := validateTx_lockstep (V := V) h.proofs.1 h.symm.untouched_covers
    (agree_validateTx (untouched_avoids V.E b) h.proofs.2 hB)
  obtain ⟨shBA, hBA, hAgreeA⟩ := hSeesA.exists_ok hA
  have hLastA := agree_validateTx (untouched_avoids V.E a) h.proofs.1 hBA
  have hLastB := agree_validateTx (untouched_avoids V.E b) h.proofs.2 hAB
  have hOffA := offences_of_validateTx h.proofs.1 hA
  have hOffB := offences_of_validateTx h.proofs.2 hB
  have hOffAB := offences_of_validateTx h.proofs.2 hAB
  have hOffBA := offences_of_validateTx h.proofs.1 hBA
  have hSame : shAB = shBA := by
    refine eq_of_agree h (hAgreeB.trans hLastA) (hLastB.symm.trans hAgreeA) ?_ ?_
    · rw [hOffAB.1, hOffA.1, hOffBA.1, hOffB.1]
    · rw [hOffAB.2, hOffA.2, hOffBA.2, hOffB.2]
  exact ⟨shB, hB, hSame ▸ hBA⟩

theorem foldlM_pair_eq_ok {sh sh' : Shadow} :
    [a, b].foldlM V.validateTx sh = .ok sh' ↔
      ∃ mid, V.validateTx sh a = .ok mid ∧ V.validateTx mid b = .ok sh' := by
  simp

theorem pair_swap (h : Unrelated V.E a b) {sh sh' : Shadow} :
    [a, b].foldlM V.validateTx sh = .ok sh' ↔ [b, a].foldlM V.validateTx sh = .ok sh' := by
  rw [foldlM_pair_eq_ok, foldlM_pair_eq_ok]
  constructor
  · rintro ⟨mid, hA, hAB⟩
    exact validateTx_swap h hA hAB
  · rintro ⟨mid, hB, hBA⟩
    exact validateTx_swap h.symm hB hBA

theorem quiet_pair (hKeys : ParsesLongKeys V.E) (h : Unrelated V.E a b) (sh : Shadow) :
    Quiet ([a, b].foldlM V.validateTx sh) := by
  have hA : ∀ mid, Quiet (V.validateTx mid a) := fun mid =>
    quiet_validateTx hKeys fun hGarbled => h.proofs.1 hGarbled.type
  have hB : ∀ mid, Quiet (V.validateTx mid b) := fun mid =>
    quiet_validateTx hKeys fun hGarbled => h.proofs.2 hGarbled.type
  exact .bind (hA sh) fun mid _ => .bind (hB mid) fun _ _ => .pure _

/-- Two runs with the same results, neither of which panics, are one. -/
theorem eq_of_quiet {α : Type} {x y : Except Stop α} (hx : Quiet x) (hy : Quiet y)
    (h : ∀ r, x = .ok r ↔ y = .ok r) : x = y := by
  rcases x with (_ | p) | r
  · rcases y with (_ | p) | r
    · rfl
    · exact absurd rfl (hy p)
    · cases (h r).mpr rfl
  · exact absurd rfl (hx p)
  · exact ((h r).mp rfl).symm

/-! ## Lists -/

theorem run_swap (h : Unrelated V.E a b) {before after : List Transaction} {sh : Shadow}
    (hRun : V.run (before ++ [a, b] ++ after) = .ok sh) :
    V.run (before ++ [b, a] ++ after) = .ok sh := by
  obtain ⟨mid, hFirst, hAfter⟩ := foldlM_append_eq_ok.mp hRun
  obtain ⟨start, hBefore, hPair⟩ := foldlM_append_eq_ok.mp hFirst
  have hSwapped := foldlM_append_eq_ok.mpr ⟨start, hBefore, (pair_swap h).mp hPair⟩
  exact foldlM_append_eq_ok.mpr ⟨mid, hSwapped, hAfter⟩

theorem run_swap_eq (hKeys : ParsesLongKeys V.E) (h : Unrelated V.E a b)
    (before after : List Transaction) :
    V.run (before ++ [a, b] ++ after) = V.run (before ++ [b, a] ++ after) := by
  have hPair : ∀ sh, [a, b].foldlM V.validateTx sh = [b, a].foldlM V.validateTx sh := fun sh =>
    eq_of_quiet (quiet_pair hKeys h sh) (quiet_pair hKeys h.symm sh) fun _ => pair_swap h
  unfold run
  simp only [List.foldlM_append, hPair]

end Step

/-! ## The ledger -/

/-- Coins and nonces added to an account, in the arithmetic of `uint64`. -/
def shift (bl : BalanceLedger) (move : Bytes × UInt64 × UInt64) : BalanceLedger :=
  bl.set move.1 ⟨(bl.account move.1).balance + move.2.1, (bl.account move.1).nonce + move.2.2⟩

theorem set_set_self (bl : BalanceLedger) (k : Bytes) (acc acc' : AccountState) :
    (bl.set k acc).set k acc' = bl.set k acc' := by
  refine congrArg BalanceLedger.mk (Std.ExtTreeMap.ext_getElem? fun k' => ?_)
  simp only [BalanceLedger.set, getElem?_insert_eq_ite]
  split <;> rfl

theorem set_set_comm (bl : BalanceLedger) {k k' : Bytes} (h : k ≠ k') (acc acc' : AccountState) :
    (bl.set k acc).set k' acc' = (bl.set k' acc').set k acc := by
  refine congrArg BalanceLedger.mk (Std.ExtTreeMap.ext_getElem? fun x => ?_)
  simp only [BalanceLedger.set, getElem?_insert_eq_ite]
  by_cases hx : k = x
  · subst hx
    rw [if_neg h.symm, if_pos rfl, if_pos rfl]
  · simp [hx]

theorem shift_comm (bl : BalanceLedger) (m m' : Bytes × UInt64 × UInt64) :
    shift (shift bl m) m' = shift (shift bl m') m := by
  obtain ⟨k, coins, nonces⟩ := m
  obtain ⟨k', coins', nonces'⟩ := m'
  by_cases hKey : k = k'
  · subst hKey
    simp only [shift, BalanceLedger.account_set, if_true, set_set_self]
    rw [add_right_comm, add_right_comm (bl.account k).nonce]
  · simp only [shift, BalanceLedger.account_set, if_neg hKey, if_neg (Ne.symm hKey)]
    exact set_set_comm bl hKey _ _

def feeMoves (tx : Transaction) : List (Bytes × UInt64 × UInt64) :=
  if 0 < tx.fee then [(hexEncode tx.ownerKey, -tx.fee, 0)] else []

def fundMoves (tx : Transaction) : List (Bytes × UInt64 × UInt64) :=
  if tx.type = .fund ∧ 0 < tx.recipient.length ∧ 0 < tx.listPrice then
    [(hexEncode tx.ownerKey, -tx.listPrice, 0), (hexEncode tx.recipient, tx.listPrice, 0)]
  else []

def bondMoves (tx : Transaction) : List (Bytes × UInt64 × UInt64) :=
  if tx.type = .stake ∧ 0 < tx.stakeAmount then [(hexEncode tx.ownerKey, -tx.stakeAmount, 0)] else []

/-- What a transaction that can pay does to accounts. -/
def moves (tx : Transaction) : List (Bytes × UInt64 × UInt64) :=
  (hexEncode tx.ownerKey, 0, 1) :: (feeMoves tx ++ fundMoves tx ++ bondMoves tx)

/-- A transaction without a key moves nothing. -/
def signedMoves (tx : Transaction) : List (Bytes × UInt64 × UInt64) :=
  if tx.ownerKey.length = 0 then [] else moves tx

theorem incrementNonce_eq_shift (bl : BalanceLedger) (k : Bytes) :
    bl.incrementNonce k = shift bl (k, 0, 1) := by
  simp [BalanceLedger.incrementNonce, shift]

theorem credit_eq_shift (bl : BalanceLedger) (k : Bytes) (amount : UInt64) :
    bl.credit k amount = shift bl (k, amount, 0) := by
  simp [BalanceLedger.credit, shift]

theorem debit_eq_shift {bl paid : BalanceLedger} {k : Bytes} {amount : UInt64}
    (h : bl.debit k amount = .ok (.ok paid)) : paid = shift bl (k, -amount, 0) := by
  obtain ⟨-, text, hError⟩ | ⟨-, hPaid⟩ := BalanceLedger.debit_cases h
  · cases hError
  · rw [Except.ok.inj hPaid]
    simp [shift, UInt64.sub_eq_add_neg]

theorem debitOrLog_eq_shift {bl paid : BalanceLedger} {k : Bytes} {amount : UInt64}
    (h : bl.debit k amount = .ok (.ok paid)) :
    debitOrLog bl k amount = .ok (shift bl (k, -amount, 0)) := by
  rw [debitOrLog, h, ← debit_eq_shift h]
  rfl

section Pays

variable {tx : Transaction} {bl : BalanceLedger}

theorem applyFee_eq_moves (h : 0 < tx.fee →
      ∃ paid, bl.debit (hexEncode tx.ownerKey) tx.fee = .ok (.ok paid)) :
    applyFee tx (hexEncode tx.ownerKey) bl = .ok ((feeMoves tx).foldl shift bl) := by
  unfold applyFee feeMoves
  split
  · rename_i hPositive
    obtain ⟨paid, hPaid⟩ := h hPositive
    exact debitOrLog_eq_shift hPaid
  · rfl

theorem applyFund_eq_moves (h : tx.type = .fund ∧ 0 < tx.recipient.length ∧ 0 < tx.listPrice →
      ∃ paid, bl.debit (hexEncode tx.ownerKey) tx.listPrice = .ok (.ok paid)) :
    applyFund tx (hexEncode tx.ownerKey) bl = .ok ((fundMoves tx).foldl shift bl) := by
  unfold applyFund fundMoves
  split
  · rename_i hType
    obtain ⟨paid, hPaid⟩ := h hType
    rw [hPaid]
    refine pure_eq_ok.mpr ?_
    rw [credit_eq_shift, debit_eq_shift hPaid]
    rfl
  · rfl

theorem applyBond_eq_moves (h : tx.type = .stake ∧ 0 < tx.stakeAmount →
      ∃ paid, bl.debit (hexEncode tx.ownerKey) tx.stakeAmount = .ok (.ok paid)) :
    applyBond tx (hexEncode tx.ownerKey) bl = .ok ((bondMoves tx).foldl shift bl) := by
  unfold applyBond bondMoves
  split
  · rename_i hType
    obtain ⟨paid, hPaid⟩ := h hType
    exact debitOrLog_eq_shift hPaid
  · rfl

theorem applyLedgerMutations_eq_moves (hKey : tx.ownerKey.length ≠ 0) (h : Solvent tx bl) :
    applyLedgerMutations tx bl = .ok ((moves tx).foldl shift bl) := by
  have hFee := applyFee_eq_moves h.fee
  have hFund := applyFund_eq_moves fun hType =>
    (h.fund _ hFee hType).imp fun _ hPaid => hPaid.1
  have hBond := applyBond_eq_moves (h.stake _ _ hFee hFund)
  rw [applyLedgerMutations, if_neg hKey]
  refine bind_eq_ok.mpr ⟨_, hFee, bind_eq_ok.mpr ⟨_, hFund, ?_⟩⟩
  rw [hBond, incrementNonce_eq_shift, moves, List.foldl_cons, List.foldl_append, List.foldl_append]

end Pays

section Ledger

variable {V : Validation} {a b : Transaction}

/-- The ledger pass over an accepted list is a list of moves. -/
theorem Backed.ledgerPass_eq_moves {txs : List Transaction} {sh final : Shadow}
    {debt : Bytes → Nat} {ledger : BalanceLedger} (hBacked : Backed V sh.coins debt ledger)
    (hFit : ledger.supply < 2 ^ 64) (hRun : txs.foldlM V.validateTx sh = .ok final) :
    Blockchain.ledgerPass txs ledger = .ok ((txs.flatMap signedMoves).foldl shift ledger) := by
  induction txs generalizing sh debt ledger with
  | nil => rfl
  | cons tx txs ih =>
    rw [List.foldlM_cons] at hRun
    obtain ⟨mid, hTx, hRest⟩ := bind_eq_ok.mp hRun
    obtain ⟨next, hApply, hSupply, hNext⟩ := hBacked.step hFit hTx
    obtain rfl : (signedMoves tx).foldl shift ledger = next := by
      unfold signedMoves
      split
      · rename_i hKey
        rw [applyLedgerMutations, if_pos hKey] at hApply
        exact pure_eq_ok.mp hApply
      · rename_i hKey
        have hPays := solvent_of_covered hFit (hBacked.covered hKey hTx)
        exact Except.ok.inj ((applyLedgerMutations_eq_moves hKey hPays).symm.trans hApply)
    rw [Blockchain.ledgerPass, List.foldlM_cons, List.flatMap_cons, List.foldl_append]
    exact bind_eq_ok.mpr ⟨_, hApply, ih hNext (by omega) hRest⟩

/-- Two accepted neighbours, applied in either order. -/
theorem ledgerPass_pair (h : Unrelated V.E a b) {sh sh' : Shadow} {debt : Bytes → Nat}
    {ledger : BalanceLedger} (hBacked : Backed V sh.coins debt ledger)
    (hFit : ledger.supply < 2 ^ 64) (hPair : [a, b].foldlM V.validateTx sh = .ok sh') :
    ledgerPass [a, b] ledger = .ok ((moves a ++ moves b).foldl shift ledger) := by
  rw [hBacked.ledgerPass_eq_moves hFit hPair]
  simp [signedMoves, h.signed]

theorem foldl_moves_comm (ledger : BalanceLedger) (a b : Transaction) :
    (moves a ++ moves b).foldl shift ledger = (moves b ++ moves a).foldl shift ledger :=
  List.perm_append_comm.foldl_eq' (fun m _ m' _ bl => shift_comm bl m m') ledger

theorem ledgerPass_swap (h : Unrelated V.E a b) {before after : List Transaction} {sh : Shadow}
    (hFit : V.ledger.supply < 2 ^ 64) (hRun : V.run (before ++ [a, b] ++ after) = .ok sh) :
    ledgerPass (before ++ [a, b] ++ after) V.ledger =
      ledgerPass (before ++ [b, a] ++ after) V.ledger := by
  obtain ⟨mid, hFirst, -⟩ := foldlM_append_eq_ok.mp hRun
  obtain ⟨start, hBefore, hPair⟩ := foldlM_append_eq_ok.mp hFirst
  obtain ⟨ledger, hPass, hSupply, hBacked⟩ := (backed_init V).ledgerPass hFit hBefore
  have hAB := ledgerPass_pair h hBacked (by omega) hPair
  have hBA := ledgerPass_pair h.symm hBacked (by omega) ((pair_swap h).mp hPair)
  have hSame : ledgerPass [a, b] ledger = ledgerPass [b, a] ledger := by
    rw [hAB, hBA, foldl_moves_comm]
  unfold ledgerPass at hPass hSame ⊢
  simp only [List.foldlM_append, hPass]
  exact congrArg (· >>= _) hSame

end Ledger

/-- Two unrelated neighbours can be exchanged: `ValidateTransactions` accepts either order or
neither and, as no key that parses is short, returns the same; and if it accepts and the coins fit
into 64 bits, the ledger pass of either order ends with the same ledger. -/
theorem unrelated_commute {V : Validation} {a b : Transaction} (h : Unrelated V.E a b)
    (pre post : List Transaction) :
    (V.validateTransactions (pre ++ [a, b] ++ post) = .ok true ↔
        V.validateTransactions (pre ++ [b, a] ++ post) = .ok true) ∧
      (ParsesLongKeys V.E → V.validateTransactions (pre ++ [a, b] ++ post) =
        V.validateTransactions (pre ++ [b, a] ++ post)) ∧
      (V.ledger.supply < 2 ^ 64 → V.validateTransactions (pre ++ [a, b] ++ post) = .ok true →
        ∃ ledger, ledgerPass (pre ++ [a, b] ++ post) V.ledger = .ok ledger ∧
          ledgerPass (pre ++ [b, a] ++ post) V.ledger = .ok ledger) := by
  refine ⟨?_, fun hKeys => ?_, fun hFit hAccepted => ?_⟩
  · rw [validateTransactions_eq_true, validateTransactions_eq_true]
    exact ⟨fun ⟨sh, hRun⟩ => ⟨sh, run_swap h hRun⟩, fun ⟨sh, hRun⟩ => ⟨sh, run_swap h.symm hRun⟩⟩
  · unfold validateTransactions
    rw [run_swap_eq hKeys h]
  · obtain ⟨sh, hRun⟩ := validateTransactions_eq_true.mp hAccepted
    obtain ⟨ledger, hPass, -⟩ := (backed_init V).ledgerPass hFit hRun
    exact ⟨ledger, hPass, (ledgerPass_swap h hFit hRun) ▸ hPass⟩

/-! ### A FUND and a COMMIT of two registries -/

def swapEnv : Env := { strictEnv with trustedRegistries := [utf8 "registry", utf8 "second"] }

def swapValidation : Validation := mempoolValidation swapEnv (genesisState swapEnv) 1 1

/-- The registry hands coins to the other one. -/
def swapFund : Transaction :=
  StandIn.registryTx { tid := 1, type := .fund, listPrice := 500, recipient := utf8 "second" }

def swapCommit : Transaction :=
  Blockchain.StandIn.signAs (utf8 "second")
    { tid := 2, type := .commit, ownerKey := utf8 "second", fee := 1,
      commitHash := Blockchain.StandIn.digest [1] }

theorem unrelated_swap : Unrelated swapValidation.E swapFund swapCommit where
  keys := by decide +kernel
  signed := by decide +kernel
  proofs := by decide
  domains hUses := absurd hUses (by decide)
  tids := by decide
  redeemsTid := by decide
  redeemsSame := by decide
  commits := by simp [commitKeys, swapFund, StandIn.registryTx, Blockchain.StandIn.signAs]

theorem unrelated_commute_fund :
    swapValidation.validateTransactions ([] ++ [swapCommit, swapFund] ++ []) = .ok true ∧
      ∃ ledger, ledgerPass ([] ++ [swapFund, swapCommit] ++ []) swapValidation.ledger = .ok ledger ∧
        ledgerPass ([] ++ [swapCommit, swapFund] ++ []) swapValidation.ledger = .ok ledger := by
  have hAccepted : swapValidation.validateTransactions ([] ++ [swapFund, swapCommit] ++ []) =
      .ok true := by decide +kernel
  obtain ⟨-, hSame, hLedger⟩ := unrelated_commute unrelated_swap [] []
  exact ⟨(hSame parsesLongKeys_strictEnv) ▸ hAccepted, hLedger (by decide +kernel) hAccepted⟩

end Bdns.Safety
