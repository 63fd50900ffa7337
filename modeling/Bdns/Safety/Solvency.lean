import Bdns.Blockchain.Coins
import Bdns.Network.Chain

/-!
# Accepted transactions are paid

Validation keeps a running balance for every sender. It never counts what others pay to an
account, and it takes the price of a BUY at once, which the domain pass collects only later. So
the ledger pass always finds at least the running balance on an account, and on top of it the
prices that are still to be collected.
-/

namespace Bdns.Safety

open Lib Blockchain Network Validation

/-! ## One transaction -/

/-- Every debit of a transaction in the ledger pass succeeds, and the credit of a FUND does not
wrap around. The debits are those of the ledgers that the pass goes through. -/
structure Solvent (tx : Transaction) (ledger : BalanceLedger) : Prop where
  fee : 0 < tx.fee → ∃ paid,
    (ledger.incrementNonce (hexEncode tx.ownerKey)).debit (hexEncode tx.ownerKey) tx.fee =
      .ok (.ok paid)
  fund : ∀ charged,
    applyFee tx (hexEncode tx.ownerKey) (ledger.incrementNonce (hexEncode tx.ownerKey)) =
      .ok charged →
    tx.type = .fund ∧ 0 < tx.recipient.length ∧ 0 < tx.listPrice → ∃ paid,
      charged.debit (hexEncode tx.ownerKey) tx.listPrice = .ok (.ok paid) ∧
      (paid.getBalance (hexEncode tx.recipient)).toNat + tx.listPrice.toNat < 2 ^ 64
  stake : ∀ charged funded,
    applyFee tx (hexEncode tx.ownerKey) (ledger.incrementNonce (hexEncode tx.ownerKey)) =
      .ok charged →
    applyFund tx (hexEncode tx.ownerKey) charged = .ok funded →
    tx.type = .stake ∧ 0 < tx.stakeAmount → ∃ paid,
      funded.debit (hexEncode tx.ownerKey) tx.stakeAmount = .ok (.ok paid)

section Step

variable {tx : Transaction} {ledger : BalanceLedger}

/-- Who can cover fee, FUND amount and stake together can pay each of them in turn. -/
theorem solvent_of_covered (hFit : ledger.supply < 2 ^ 64)
    (hCovered : tx.fee.toNat + funded tx + bonded tx ≤
      (ledger.getBalance (hexEncode tx.ownerKey)).toNat) : Solvent tx ledger := by
  have hNonce := ledger.getBalance_incrementNonce (hexEncode tx.ownerKey)
  have hSupply₀ := ledger.supply_incrementNonce (hexEncode tx.ownerKey)
  obtain ⟨l₁, hFee, hEnough, hSelf₁, -, -, hSupply₁⟩ :
      ∃ l₁, applyFee tx (hexEncode tx.ownerKey)
        (ledger.incrementNonce (hexEncode tx.ownerKey)) = .ok l₁ ∧ _ :=
    applyFee_of_covered (by rw [hNonce]; omega)
  have hSub := toNat_sub_add hEnough
  rw [← hSelf₁, hNonce] at hSub
  obtain ⟨l₂, hFund, -, hSelf₂, -⟩ :
      ∃ l₂, applyFund tx (hexEncode tx.ownerKey) l₁ = .ok l₂ ∧ l₂.supply = l₁.supply ∧ _ :=
    applyFund_of_covered (by omega) (by omega)
  refine ⟨fun _ => ⟨_, BalanceLedger.debit_of_le hEnough⟩, ?_, ?_⟩
  · intro charged hCharged hType
    obtain rfl : l₁ = charged := Except.ok.inj (hFee.symm.trans hCharged)
    have hFunded : funded tx = tx.listPrice.toNat := by simp [funded, hType.1]
    obtain ⟨paid, hDebit⟩ :
        ∃ paid, l₁.debit (hexEncode tx.ownerKey) tx.listPrice = .ok (.ok paid) :=
      ⟨_, BalanceLedger.debit_of_le (UInt64.le_iff_toNat_le.mpr (by omega))⟩
    have hSupply := (BalanceLedger.debit_ok hDebit).supply
    refine ⟨paid, hDebit, ?_⟩
    exact Nat.lt_of_le_of_lt
      (Nat.add_le_add_right (BalanceLedger.getBalance_le_supply _ _) _) (by omega)
  · intro charged moved hCharged hMoved hType
    obtain rfl : l₁ = charged := Except.ok.inj (hFee.symm.trans hCharged)
    obtain rfl : l₂ = moved := Except.ok.inj (hFund.symm.trans hMoved)
    have hBonded : bonded tx = tx.stakeAmount.toNat := by simp [bonded, hType.1]
    exact ⟨_, BalanceLedger.debit_of_le (UInt64.le_iff_toNat_le.mpr (by omega))⟩

variable {V : Validation} {sh sh' : Shadow} {debt : Bytes → Nat}

/-- An account holds the running balance and a debt. -/
def Backed (V : Validation) (sh : CoinShadow) (debt : Bytes → Nat) (ledger : BalanceLedger) :
    Prop :=
  ∀ k, (V.runningBalance sh k).toNat + debt k ≤ (ledger.getBalance k).toNat

/-- The sender of an accepted transaction can pay. -/
theorem Backed.covered (h : Backed V sh.coins debt ledger) (hKey : tx.ownerKey.length ≠ 0)
    (hTx : V.validateTx sh tx = .ok sh') :
    tx.fee.toNat + funded tx + bonded tx ≤
      (ledger.getBalance (hexEncode tx.ownerKey)).toNat := by
  have hBalance := runningBalance_of_validateTx hTx (hexEncode tx.ownerKey)
  rw [if_pos rfl, expense, if_neg hKey] at hBalance
  have hBacked := h (hexEncode tx.ownerKey)
  omega

/-- The ledger pass of one accepted transaction leaves every account backed, that of a buyer
with the price as a new debt. -/
theorem Backed.step (h : Backed V sh.coins debt ledger) (hFit : ledger.supply < 2 ^ 64)
    (hTx : V.validateTx sh tx = .ok sh') :
    ∃ ledger', applyLedgerMutations tx ledger = .ok ledger' ∧ ledger'.supply ≤ ledger.supply ∧
      Backed V sh'.coins
        (fun k => debt k + if hexEncode tx.ownerKey = k then V.bought sh.domains tx else 0)
        ledger' := by
  by_cases hKey : tx.ownerKey.length = 0
  · have hType := type_of_ownerless hTx hKey
    refine ⟨ledger, by simp [applyLedgerMutations, hKey, pure, Except.pure], Nat.le_refl _,
      fun k => ?_⟩
    have hBalance := runningBalance_of_validateTx hTx k
    rw [expense, if_pos hKey, ite_self] at hBalance
    have hBacked := h k
    simp only [bought, hType, reduceCtorEq, if_false, ite_self]
    omega
  · obtain ⟨ledger', hApply, hSupply, hSender, hOthers⟩ :
        ∃ ledger', applyLedgerMutations tx ledger = .ok ledger' ∧ Paid tx ledger ledger' :=
      applyLedgerMutations_of_covered hFit hKey (h.covered hKey hTx)
    refine ⟨ledger', hApply, by omega, fun k => ?_⟩
    have hBalance := runningBalance_of_validateTx hTx k
    rw [expense, if_neg hKey] at hBalance
    have hBacked := h k
    dsimp only
    split at hBalance
    · rename_i hk
      subst hk
      rw [if_pos rfl]
      omega
    · rename_i hk
      have hLe := hOthers k hk
      rw [if_neg hk]
      omega

end Step

/-! ## A list of transactions -/

/-- The prices that validation takes from an account in the rest of a list. -/
def owed (V : Validation) (k : Bytes) : Shadow → List Transaction → Nat
  | _, [] => 0
  | sh, tx :: rest =>
    (if hexEncode tx.ownerKey = k then V.bought sh.domains tx else 0) +
      match V.validateTx sh tx with
      | .ok sh' => owed V k sh' rest
      | .error _ => 0

theorem owed_cons {V : Validation} {tx : Transaction} {sh sh' : Shadow}
    (hTx : V.validateTx sh tx = .ok sh') (k : Bytes) (rest : List Transaction) :
    owed V k sh (tx :: rest) =
      (if hexEncode tx.ownerKey = k then V.bought sh.domains tx else 0) + owed V k sh' rest := by
  rw [owed, hTx]

theorem backed_init (V : Validation) : Backed V {} (fun _ => 0) V.ledger :=
  fun _ => Nat.le_refl _

/-- The ledger pass over an accepted list: no coins are created, and all prices are backed. -/
theorem Backed.ledgerPass {V : Validation} {txs : List Transaction} {sh final : Shadow}
    {debt : Bytes → Nat} {ledger : BalanceLedger} (h : Backed V sh.coins debt ledger)
    (hFit : ledger.supply < 2 ^ 64) (hRun : txs.foldlM V.validateTx sh = .ok final) :
    ∃ ledger', ledgerPass txs ledger = .ok ledger' ∧ ledger'.supply ≤ ledger.supply ∧
      Backed V final.coins (fun k => debt k + owed V k sh txs) ledger' := by
  induction txs generalizing sh debt ledger with
  | nil =>
    obtain rfl : sh = final := by simpa using hRun
    exact ⟨ledger, rfl, Nat.le_refl _, h⟩
  | cons tx txs ih =>
    rw [List.foldlM_cons] at hRun
    obtain ⟨sh', hTx, hRest⟩ := bind_eq_ok.mp hRun
    obtain ⟨mid, hApply, hSupply, hMid⟩ := h.step hFit hTx
    obtain ⟨ledger', hPass, hSupply', hBacked⟩ := ih hMid (by omega) hRest
    refine ⟨ledger', ?_, by omega, fun k => ?_⟩
    · rw [Blockchain.ledgerPass, List.foldlM_cons]
      exact bind_eq_ok.mpr ⟨mid, hApply, hPass⟩
    · have hk := hBacked k
      dsimp only at hk ⊢
      rw [owed_cons hTx]
      omega

/-- Accepted transactions never overdraw: in the ledger pass over an accepted list every debit
succeeds and no credit wraps around, and at its end every account holds at least the balance
that validation computed for it. -/
theorem accepted_never_overdraws {V : Validation} {txs : List Transaction} {sh : Shadow}
    (hFit : V.ledger.supply < 2 ^ 64) (hRun : V.run txs = .ok sh) :
    (∀ before tx after, txs = before ++ tx :: after → ∃ ledger,
      ledgerPass before V.ledger = .ok ledger ∧
        (tx.ownerKey.length ≠ 0 → Solvent tx ledger)) ∧
      ∃ ledger, ledgerPass txs V.ledger = .ok ledger ∧
        ∀ k, (V.runningBalance sh.coins k).toNat ≤ (ledger.getBalance k).toNat := by
  constructor
  · rintro before tx after rfl
    obtain ⟨mid, hBefore, hRest⟩ := foldlM_append_eq_ok.mp hRun
    rw [List.foldlM_cons] at hRest
    obtain ⟨sh', hTx, -⟩ := bind_eq_ok.mp hRest
    obtain ⟨ledger, hPass, hSupply, hBacked⟩ := (backed_init V).ledgerPass hFit hBefore
    exact ⟨ledger, hPass, fun hKey =>
      solvent_of_covered (by omega) (hBacked.covered hKey hTx)⟩
  · obtain ⟨ledger, hPass, -, hBacked⟩ := (backed_init V).ledgerPass hFit hRun
    refine ⟨ledger, hPass, fun k => ?_⟩
    have hk := hBacked k
    dsimp only at hk
    omega

/-- A registry hands coins to an account and locks most of the rest. -/
def solventTxs : List Transaction :=
  [StandIn.registryTx { tid := 1, type := .fund, listPrice := 500, recipient := utf8 "account" },
    StandIn.registryTx { tid := 2, type := .stake, nonce := 1, stakeAmount := 999000 }]

def solventBlock : Block :=
  { index := 1, slotNumber := 1, slotLeader := utf8 "registry", transactions := solventTxs,
    prevHash := [] }

def solventValidation : Validation :=
  blockValidation StandIn.registryEnv (genesisState StandIn.registryEnv) solventBlock

theorem accepted_never_overdraws_registry :
    ∃ sh ledger, solventValidation.run solventTxs = .ok sh ∧
      ledgerPass solventTxs solventValidation.ledger = .ok ledger ∧
      ∀ k, (solventValidation.runningBalance sh.coins k).toNat ≤
        (ledger.getBalance k).toNat := by
  obtain ⟨sh, hRun⟩ : ∃ sh, solventValidation.run solventTxs = .ok sh :=
    exists_eq_ok (by decide +kernel)
  obtain ⟨-, ledger, hPass, hBalances⟩ := accepted_never_overdraws (by decide +kernel) hRun
  exact ⟨sh, ledger, hRun, hPass, hBalances⟩

end Bdns.Safety
