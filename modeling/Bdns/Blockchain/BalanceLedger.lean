import Bdns.Blockchain.Block
import Bdns.Lib.FiniteMap

/-!
# The balance ledger

`balance_ledger.go`: accounts keyed by the hexadecimal text of a public key. Every
operation replaces one account, so each is stated as a `set`, and what it does to the
other accounts and to the `supply` follows from `account_set` and `supply_set`.
-/

namespace Bdns.Blockchain

open Lib Std

structure AccountState where
  balance : UInt64 := 0
  nonce : UInt64 := 0
  deriving DecidableEq

structure BalanceLedger where
  accounts : ExtTreeMap Bytes AccountState compare := ∅

/-- The first eight characters of a key, as the messages show it. A shorter key makes the
slice expression panic. -/
def keyPrefix (pubKeyHex : Bytes) : Go Bytes :=
  if pubKeyHex.length < 8 then throw .indexOutOfRange else pure (pubKeyHex.take 8)

namespace BalanceLedger

/-- The account of a key, with the zero account where there is none. -/
def account (bl : BalanceLedger) (pubKeyHex : Bytes) : AccountState :=
  (bl.accounts[pubKeyHex]?).getD {}

def set (bl : BalanceLedger) (pubKeyHex : Bytes) (acc : AccountState) : BalanceLedger :=
  ⟨bl.accounts.insert pubKeyHex acc⟩

def seed (bl : BalanceLedger) (pubKeyHex : Bytes) (initialBalance : UInt64) : BalanceLedger :=
  bl.set pubKeyHex { balance := initialBalance }

def getBalance (bl : BalanceLedger) (pubKeyHex : Bytes) : UInt64 := (bl.account pubKeyHex).balance

def getNonce (bl : BalanceLedger) (pubKeyHex : Bytes) : UInt64 := (bl.account pubKeyHex).nonce

/-- `Debit`: the new ledger, or the text of the error. -/
def debit (bl : BalanceLedger) (pubKeyHex : Bytes) (amount : UInt64) :
    Go (Except Bytes BalanceLedger) :=
  if bl.getBalance pubKeyHex < amount then do
    let short ← keyPrefix pubKeyHex
    pure (.error (utf8 "insufficient balance: " ++ short ++ utf8 " has " ++
      decimal (bl.getBalance pubKeyHex).toNat ++ utf8 ", needs " ++ decimal amount.toNat))
  else
    pure (.ok (bl.set pubKeyHex
      ⟨(bl.account pubKeyHex).balance - amount, (bl.account pubKeyHex).nonce⟩))

def credit (bl : BalanceLedger) (pubKeyHex : Bytes) (amount : UInt64) : BalanceLedger :=
  bl.set pubKeyHex ⟨(bl.account pubKeyHex).balance + amount, (bl.account pubKeyHex).nonce⟩

def incrementNonce (bl : BalanceLedger) (pubKeyHex : Bytes) : BalanceLedger :=
  bl.set pubKeyHex ⟨(bl.account pubKeyHex).balance, (bl.account pubKeyHex).nonce + 1⟩

/-- One account as the hash sees it. -/
def accountLine (e : Bytes × AccountState) : Bytes :=
  e.1 ++ utf8 ":" ++ decimal e.2.balance.toNat ++ utf8 ":" ++ decimal e.2.nonce.toNat ++ utf8 "\n"

/-- The text `Hash` digests: the accounts in the order of their keys. -/
def hashText (bl : BalanceLedger) : Bytes := bl.accounts.toList.flatMap accountLine

def hash (E : External) (bl : BalanceLedger) : Bytes := E.sha256 bl.hashText

/-! ## What one operation changes -/

/-- The coins on all accounts. -/
def supply (bl : BalanceLedger) : Nat := total (fun acc => acc.balance.toNat) bl.accounts

theorem account_set (bl : BalanceLedger) (k k' : Bytes) (acc : AccountState) :
    (bl.set k acc).account k' = if k = k' then acc else bl.account k' := by
  simp only [account, set, getElem?_insert_eq_ite]
  split <;> rfl

theorem supply_set (bl : BalanceLedger) (k : Bytes) (acc : AccountState) :
    (bl.set k acc).supply + (bl.getBalance k).toNat = bl.supply + acc.balance.toNat := by
  have h := total_insert_add (fun a : AccountState => a.balance.toNat) bl.accounts k acc
  simp only [supply, set, getBalance, account]
  cases hk : bl.accounts[k]? with
  | none => simpa [hk] using h
  | some old => simpa [hk] using h

theorem getBalance_le_supply (bl : BalanceLedger) (k : Bytes) :
    (bl.getBalance k).toNat ≤ bl.supply := by
  simp only [getBalance, account]
  cases hk : bl.accounts[k]? with
  | none => simp
  | some acc => exact le_total (fun a : AccountState => a.balance.toNat) hk

@[simp] theorem getBalance_incrementNonce (bl : BalanceLedger) (k k' : Bytes) :
    (bl.incrementNonce k).getBalance k' = bl.getBalance k' := by
  simp only [getBalance, incrementNonce, account_set]
  split
  · rename_i h
    rw [h]
  · rfl

theorem getNonce_incrementNonce (bl : BalanceLedger) (k k' : Bytes) :
    (bl.incrementNonce k).getNonce k' =
      if k = k' then bl.getNonce k + 1 else bl.getNonce k' := by
  simp only [getNonce, incrementNonce, account_set]
  split <;> rfl

@[simp] theorem supply_incrementNonce (bl : BalanceLedger) (k : Bytes) :
    (bl.incrementNonce k).supply = bl.supply := by
  have h := supply_set bl k ⟨(bl.account k).balance, (bl.account k).nonce + 1⟩
  simp only [getBalance] at h
  exact Nat.add_right_cancel h

theorem getBalance_credit (bl : BalanceLedger) (k k' : Bytes) (amount : UInt64) :
    (bl.credit k amount).getBalance k' =
      if k = k' then bl.getBalance k + amount else bl.getBalance k' := by
  simp only [getBalance, credit, account_set]
  split <;> rfl

@[simp] theorem getNonce_credit (bl : BalanceLedger) (k k' : Bytes) (amount : UInt64) :
    (bl.credit k amount).getNonce k' = bl.getNonce k' := by
  simp only [getNonce, credit, account_set]
  split
  · rename_i h
    rw [h]
  · rfl

/-- A credit adds its amount, less a multiple of `2 ^ 64` where the balance wraps around. -/
theorem supply_credit_le (bl : BalanceLedger) (k : Bytes) (amount : UInt64) :
    (bl.credit k amount).supply ≤ bl.supply + amount.toNat := by
  have h := supply_set bl k ⟨(bl.account k).balance + amount, (bl.account k).nonce⟩
  have hAdd : ((bl.account k).balance + amount).toNat ≤
      (bl.account k).balance.toNat + amount.toNat := by
    rw [UInt64.toNat_add]
    exact Nat.mod_le _ _
  simp only [getBalance] at h
  unfold credit
  omega

theorem supply_credit (bl : BalanceLedger) (k : Bytes) (amount : UInt64)
    (hFit : bl.supply + amount.toNat < 2 ^ 64) :
    (bl.credit k amount).supply = bl.supply + amount.toNat := by
  have h := supply_set bl k ⟨(bl.account k).balance + amount, (bl.account k).nonce⟩
  have hLe : (bl.account k).balance.toNat ≤ bl.supply := getBalance_le_supply bl k
  have hAdd : ((bl.account k).balance + amount).toNat =
      (bl.account k).balance.toNat + amount.toNat := by
    rw [UInt64.toNat_add]
    exact Nat.mod_eq_of_lt (by omega)
  simp only [getBalance] at h
  unfold credit
  omega

/-- `Debit` either fails, which needs a balance below the amount, or takes the amount. -/
theorem debit_cases {bl : BalanceLedger} {k : Bytes} {amount : UInt64}
    {r : Except Bytes BalanceLedger} (h : bl.debit k amount = .ok r) :
    (bl.getBalance k < amount ∧ ∃ text, r = .error text) ∨
      (amount ≤ bl.getBalance k ∧
        r = .ok (bl.set k ⟨(bl.account k).balance - amount, (bl.account k).nonce⟩)) := by
  unfold debit at h
  split at h
  · rename_i hLow
    obtain ⟨short, -, hText⟩ := bind_eq_ok.mp h
    exact Or.inl ⟨hLow, _, (pure_eq_ok.mp hText).symm⟩
  · rename_i hHigh
    exact Or.inr ⟨by simpa using hHigh, (pure_eq_ok.mp h).symm⟩

theorem debit_of_le {bl : BalanceLedger} {k : Bytes} {amount : UInt64}
    (h : amount ≤ bl.getBalance k) :
    bl.debit k amount =
      .ok (.ok (bl.set k ⟨(bl.account k).balance - amount, (bl.account k).nonce⟩)) := by
  unfold debit
  rw [if_neg (by simpa using h)]
  rfl

/-- The ledger after a debit that succeeds. -/
structure Debited (bl bl' : BalanceLedger) (k : Bytes) (amount : UInt64) : Prop where
  enough : amount ≤ bl.getBalance k
  balance_self : bl'.getBalance k = bl.getBalance k - amount
  balance_ne : ∀ k', k ≠ k' → bl'.getBalance k' = bl.getBalance k'
  nonce : ∀ k', bl'.getNonce k' = bl.getNonce k'
  supply : bl'.supply + amount.toNat = bl.supply

theorem debit_ok {bl bl' : BalanceLedger} {k : Bytes} {amount : UInt64}
    (h : bl.debit k amount = .ok (.ok bl')) : Debited bl bl' k amount := by
  obtain ⟨-, text, hr⟩ | ⟨hEnough, hr⟩ := debit_cases h
  · cases hr
  · cases hr
    refine ⟨hEnough, ?_, ?_, ?_, ?_⟩
    · simp [getBalance, account_set]
    · intro k' hne
      simp [getBalance, account_set, hne]
    · intro k'
      simp only [getNonce, account_set]
      split
      · rename_i hk
        rw [hk]
      · rfl
    · have hs := supply_set bl k ⟨(bl.account k).balance - amount, (bl.account k).nonce⟩
      have hSub := UInt64.toNat_sub_of_le _ _ hEnough
      have hLe := UInt64.le_iff_toNat_le.mp hEnough
      simp only [getBalance] at hs hSub hLe
      omega

/-! ## The hash binds the accounts -/

/-- All keys are texts of digits and small letters, as hexadecimal keys are. -/
def PlainKeys (bl : BalanceLedger) : Prop := ∀ e ∈ bl.accounts.toList, Alnum e.1

theorem PlainKeys.set {bl : BalanceLedger} (h : bl.PlainKeys) {k : Bytes} (hk : Alnum k)
    (acc : AccountState) : (bl.set k acc).PlainKeys := by
  intro e he
  rw [ExtTreeMap.mem_toList_iff_getElem?_eq_some, BalanceLedger.set,
    getElem?_insert_eq_ite] at he
  by_cases hKey : k = e.1
  · exact hKey ▸ hk
  · rw [if_neg hKey] at he
    exact h e (ExtTreeMap.mem_toList_iff_getElem?_eq_some.mpr he)

theorem accountLine_append_inj {e e' : Bytes × AccountState} {x y : Bytes} (he : Alnum e.1)
    (he' : Alnum e'.1) (h : accountLine e ++ x = accountLine e' ++ y) : e = e' ∧ x = y := by
  simp only [accountLine, utf8_colon, utf8_newline, List.append_assoc, List.cons_append,
    List.nil_append] at h
  obtain ⟨hKey, h⟩ := append_sep_inj (he.not_mem (by decide)) (he'.not_mem (by decide)) h
  obtain ⟨hBalance, h⟩ := append_sep_inj ((decimal_alnum _).not_mem (by decide))
    ((decimal_alnum _).not_mem (by decide)) h
  obtain ⟨hNonce, hRest⟩ := append_sep_inj ((decimal_alnum _).not_mem (by decide))
    ((decimal_alnum _).not_mem (by decide)) h
  obtain ⟨k, balance, nonce⟩ := e
  obtain ⟨k', balance', nonce'⟩ := e'
  obtain rfl := UInt64.toNat_inj.mp (decimal_injective hBalance)
  obtain rfl := UInt64.toNat_inj.mp (decimal_injective hNonce)
  exact ⟨by rw [show k = k' from hKey], hRest⟩

theorem accountLine_ne_nil (e : Bytes × AccountState) : accountLine e ≠ [] := by
  simp [accountLine, utf8_newline]

/-- Ledgers with plain keys and one text are one. -/
theorem eq_of_hashText_eq {bl bl' : BalanceLedger} (hbl : bl.PlainKeys) (hbl' : bl'.PlainKeys)
    (h : bl.hashText = bl'.hashText) : bl = bl' := by
  have hList : bl.accounts.toList = bl'.accounts.toList :=
    eq_of_flatMap_eq (P := fun e : Bytes × AccountState => Alnum e.1) accountLine_ne_nil
      (fun _ _ _ _ => accountLine_append_inj) hbl hbl' h
  exact congrArg BalanceLedger.mk (ExtTreeMap.toList_inj.mp hList)

end BalanceLedger

end Bdns.Blockchain
