import Bdns.Consensus.Drg
import Bdns.Blockchain.StandIn

/-!
# Malformed randomness messages

`CommitmentHandler` and `RevealHandler` name the sender of a bad message by its first eight
characters, `msg.Sender[:8]`. A shorter sender makes the slice expression panic, in the error for a
bad signature (`verifySender`) and in the error for a reveal that does not match its commitment
(`DrgState.exists_store_iff`). Nothing else in the handlers can fail, and what fails before the
signature is verified changes nothing.
-/

namespace Bdns.Consensus

open Lib Blockchain

variable {G : DrgEnv} {d : DrgState} {message : DrgMessage} {pubKeyBytes : Bytes}

/-- A reveal that agrees with the commitment stored for its sender, if there is one. -/
def DrgMessage.Agrees (E : External) (pubKeyBytes : Bytes) (d : DrgState) : DrgMessage → Prop
  | .commitment _ => True
  | .reveal msg => ∀ commitment ∈ d.epochCommitments msg.epoch msg.sender,
    verifyCommitment E pubKeyBytes ⟨msg.u.getD [], msg.r, commitment⟩ = true

/-- A message for which no error quotes a sender of less than eight characters. -/
def DrgMessage.Answerable (G : DrgEnv) (d : DrgState) (message : DrgMessage) : Prop :=
  8 ≤ message.sender.length ∨
    d.hasSeenDRGMessage (msgKey message.handler message.epoch message.sender)
      message.epoch.toUInt64 = true ∨
    (∃ err, hexDecodeString message.sender = .error err) ∨
    ∃ pubKeyBytes, message.signer G = some pubKeyBytes ∧ message.Agrees G.E pubKeyBytes d

/-- Storing a message fails only where a mismatch cannot be reported. -/
theorem DrgState.exists_store_iff {E : External} :
    (∃ result, d.store E message pubKeyBytes = .ok result) ↔
      8 ≤ message.sender.length ∨ message.Agrees E pubKeyBytes d := by
  cases message with
  | commitment msg => exact ⟨fun _ => .inr trivial, fun _ => ⟨_, rfl⟩⟩
  | reveal msg =>
    simp only [store, storeReveal, DrgMessage.Agrees, DrgMessage.sender]
    cases hStored : d.epochCommitments msg.epoch msg.sender with
    | none => exact ⟨fun _ => .inr (by simp), fun _ => ⟨_, rfl⟩⟩
    | some commitment =>
      by_cases hVerify : verifyCommitment E pubKeyBytes ⟨msg.u.getD [], msg.r, commitment⟩ = true
      · simp [hVerify]
      · by_cases hShort : msg.sender.length < 8
        · simp [hVerify, hShort]
        · simp [hVerify, hShort, Nat.not_lt.mp hShort]

/-- A handler returns, unless it has to quote a sender that is too short. -/
theorem exists_handleDrg_iff :
    (∃ result, handleDrg G message d = .ok result) ↔ message.Answerable G d := by
  rw [handleDrg_eq]
  unfold handleOnce verifySender DrgMessage.Answerable DrgMessage.signer
  by_cases hSeen : d.hasSeenDRGMessage (msgKey message.handler message.epoch message.sender)
      message.epoch.toUInt64 = true
  · rw [if_pos hSeen]
    exact ⟨fun _ => .inr (.inl hSeen), fun _ => ⟨_, rfl⟩⟩
  · rw [if_neg hSeen]
    cases hHex : hexDecodeString message.sender with
    | error err => exact ⟨fun _ => .inr (.inr (.inl ⟨err, rfl⟩)), fun _ => ⟨_, rfl⟩⟩
    | ok pubKeyBytes =>
      by_cases hVerifies : G.verifies pubKeyBytes message.payload message.signature = true
      · have hStore := @DrgState.exists_store_iff
          (d.markDRGMessageSeen (msgKey message.handler message.epoch message.sender)
            message.epoch.toUInt64) message pubKeyBytes G.E
        -- marking a message leaves the stored commitments alone
        have hAgrees : message.Agrees G.E pubKeyBytes (d.markDRGMessageSeen
            (msgKey message.handler message.epoch message.sender) message.epoch.toUInt64) ↔
            message.Agrees G.E pubKeyBytes d := by
          cases message <;> rfl
        rw [hAgrees] at hStore
        simpa [hVerifies, hSeen, bind, Except.bind, pure, Except.pure] using hStore
      · by_cases hShort : message.sender.length < 8
        · simp [hVerifies, hSeen, hShort]
        · simp [hVerifies, hSeen, hShort, Nat.not_lt.mp hShort]

/-- **When a message is handled cleanly.** A handler returns exactly if no error has to quote a
sender of less than eight characters; and an error before the signature is verified leaves the
node's tables and the cache of seen messages as they are. -/
theorem handleDrg_clean_iff (G : DrgEnv) (message : DrgMessage) (d : DrgState) :
    ((∃ result, handleDrg G message d = .ok result) ↔ message.Answerable G d) ∧
      ∀ d' err, handleDrg G message d = .ok (d', some err) → message.signer G = none →
        d' = d := by
  refine ⟨exists_handleDrg_iff, fun d' err hHandle hSigner => ?_⟩
  have hCases := handleDrg_eq_ok hHandle
  rwa [hSigner] at hCases

/-- An environment in which the empty string is no key and nothing is signed. -/
def keylessEnv : DrgEnv where
  E := { External.standIn fun _ => none with
    parsePublicKey := fun b => if b = [] then none else some b }
  verifyASN1 := fun _ _ _ => false

/-- A message without a sender takes a new node down: the empty string is valid hexadecimal, but no
key, and the error quotes its first eight characters. -/
theorem handleDrg_panics_on_empty_sender :
    (commitmentHandler keylessEnv ⟨0, none, [], []⟩ {}).map Prod.snd = .error .indexOutOfRange ∧
      (revealHandler keylessEnv ⟨0, none, [], [], []⟩ {}).map Prod.snd =
        .error .indexOutOfRange := by
  constructor <;> decide +kernel

end Bdns.Consensus
