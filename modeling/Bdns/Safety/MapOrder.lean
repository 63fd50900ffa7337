import Bdns.Safety.Agreement
import Bdns.Safety.Entries

/-!
# Map order and the network

Go visits the journal of an index overlay in an order of its own. The order shows in `GetTxByID`,
which returns the first transaction with a number, and in the shape of the tree that `Commit`
builds, which a later `GetTxByID` searches. Neither is seen as long as no number stands under two
keys. Senders choose the numbers, and nothing keeps two of them apart.
-/

namespace Bdns.Safety

open Lib Blockchain Network Index

/-! ## Numbers and keys -/

/-- The transactions that stand under a key, or that a block can bring there. -/
def StandsUnder (E : External) (im : IndexManager) (txs : List Transaction) (key : Bytes)
    (t : Transaction) : Prop :=
  (∃ m, im.tree.search key = some (t, m)) ∨
    t ∈ txs ∧ Writes t ∧ hashDomain E t.domainName = key

/-- No number stands under two keys. -/
def NumbersApart (E : External) (im : IndexManager) (txs : List Transaction) : Prop :=
  ∀ key key' t t', StandsUnder E im txs key t → StandsUnder E im txs key' t' →
    t.tid = t'.tid → key = key'

section Journal

variable {E : External} {slotsPerDay : Int64} {im : IndexManager} {txs : List Transaction}
  {names : Set Bytes} {o : IndexOverlay}

/-- The number of a journal entry stands under the key of its domain. -/
theorem standsUnder_of_journal (hJournal : JournalFrom E slotsPerDay (· ∈ txs) o)
    (hReal : o.real = im) {d : Bytes} {entry : OverlayEntry} {t : Transaction}
    (hEntry : o.journal[d]? = some entry) (hTx : entry.tx = some t) :
    ∃ p, StandsUnder E im txs (hashDomain E d) p ∧ p.tid = t.tid := by
  cases hAdded : entry.addedTx with
  | some t' =>
    obtain rfl : t' = t := Option.some.inj ((tx_of_addedTx hAdded).symm.trans hTx)
    obtain ⟨tx, hMem, hWrites, rfl, hStored⟩ := hJournal.added d entry t' hEntry hAdded
    exact ⟨tx, .inr ⟨hMem, hWrites, rfl⟩, hStored.tid.symm⟩
  | none =>
    have hFound := hJournal.unchanged d entry hEntry hAdded
    rw [hTx, hReal, IndexManager.getDomain_eq] at hFound
    obtain ⟨⟨t', m⟩, hSearch, rfl⟩ := Option.map_eq_some_iff.mp hFound.symm
    exact ⟨t', .inl ⟨m, hSearch⟩, rfl⟩

/-- The journal gives one answer for a number in every order. -/
theorem getTxByID_order (hApart : NumbersApart E im txs)
    (hJournal : JournalFrom E slotsPerDay (· ∈ txs) o) (hReal : o.real = im)
    (hKeys : KeysIn names o) (hInj : Set.InjOn E.sha256 names)
    {range range' : List (Bytes × OverlayEntry) → List (Bytes × OverlayEntry)}
    (hRange : ∀ xs, (range xs).Perm xs) (hRange' : ∀ xs, (range' xs).Perm xs) (txID : Int64) :
    o.getTxByID range txID = o.getTxByID range' txID := by
  have hMem : ∀ e ∈ range o.journal.toList, o.journal[e.1]? = some e.2 := fun e he =>
    Std.ExtTreeMap.mem_toList_iff_getElem?_eq_some.mp ((hRange _).mem_iff.mp he)
  have hName : ∀ e ∈ range o.journal.toList, e.1 ∈ names := fun e he =>
    hKeys e.1 (Std.ExtTreeMap.mem_iff_isSome_getElem?.mpr (by simp [hMem e he]))
  have hSame : (range o.journal.toList).findSome?
        (fun e => e.2.tx.filter fun tx => tx.tid = txID) =
      (range' o.journal.toList).findSome? fun e => e.2.tx.filter fun tx => tx.tid = txID := by
    refine findSome?_eq_of_perm ((hRange _).trans (hRange' _).symm) ?_
    intro e he e' he' t t' ht ht'
    obtain ⟨hTx, hTid⟩ := Option.filter_eq_some_iff.mp ht
    obtain ⟨hTx', hTid'⟩ := Option.filter_eq_some_iff.mp ht'
    obtain ⟨p, hp, hpTid⟩ := standsUnder_of_journal hJournal hReal (hMem e he) hTx
    obtain ⟨p', hp', hpTid'⟩ := standsUnder_of_journal hJournal hReal (hMem e' he') hTx'
    have hEqual : p.tid = p'.tid := by
      rw [hpTid, hpTid', of_decide_eq_true hTid, of_decide_eq_true hTid']
    have hDomain : e.1 = e'.1 :=
      hInj (hName e he) (hName e' he') (hexEncode_injective (hApart _ _ p p' hp hp' hEqual))
    have hEntry := hMem e he
    rw [hDomain, hMem e' he'] at hEntry
    rw [Option.some.inj hEntry] at hTx'
    exact Option.some.inj (hTx.symm.trans hTx')
  unfold IndexOverlay.getTxByID
  rw [hSame]

end Journal

/-- The domain pass does not depend on the order in which the journal is visited. -/
theorem domainPass_apart {env : Env} {names : Set Bytes} {im : IndexManager}
    {txs : List Transaction} (hApart : NumbersApart env.E im txs)
    (hInj : Set.InjOn env.E.sha256 names) (hNames : ∀ tx ∈ txs, tx.domainName ∈ names)
    (order order' : JournalOrder) (slot blockIndex : Int64) (ledger : BalanceLedger)
    (cs : CommitOverlay) :
    domainPass env order slot blockIndex txs ⟨ledger, .newIndexOverlay im, cs⟩ =
      domainPass env order' slot blockIndex txs ⟨ledger, .newIndexOverlay im, cs⟩ := by
  refine domainPass_order_of (fun st => JournalFrom env.E env.slotsPerDay (· ∈ txs) st.im ∧
    st.im.real = im ∧ KeysIn names st.im) ?_ ?_
    ⟨.newIndexOverlay im, rfl, keysIn_newIndexOverlay names im⟩
  · rintro tx hMem i st st' err ⟨hJournal, hReal, hKeys⟩ hEffect
    exact ⟨hJournal.step hMem hEffect, (real_of_effect hEffect).trans hReal,
      hKeys.step (hNames tx hMem) hEffect⟩
  · rintro tx st i ⟨hJournal, hReal, hKeys⟩
    exact congrArg (Option.any fun redeemsTx => redeemsTx.domainName == tx.domainName)
      (getTxByID_order hApart hJournal hReal hKeys hInj (order.perm i) (order'.perm i) _)

/-! ## What a commit installs -/

section Installed

variable {env : Env} {names : Set Bytes} {order order' : JournalOrder} {s : ChainState}
  {txs : List Transaction} {staged : Staged}

/-- The nodes after a commit in two orders. -/
theorem search_installValidated (hKeys : KeysIn names staged.im)
    (hInj : Set.InjOn env.E.sha256 names) (key : Bytes) :
    (installValidated env order txs staged s).index.tree.search key =
      (installValidated env order' txs staged s).index.tree.search key := by
  have hDomains : ∀ d ∈ staged.im.journal, ∀ d' ∈ staged.im.journal,
      hashDomain env.E d' = hashDomain env.E d → d' = d :=
    fun d hd d' hd' hEq => hInj (hKeys d' hd') (hKeys d hd) (hexEncode_injective hEq)
  have hFirst := IndexOverlay.search_commit_congr staged.im (order.perm txs.length)
    (order'.perm txs.length) (fun key => (rfl : s.index.tree.search key = _)) hDomains
  exact IndexOverlay.search_commit_congr staged.im (order.perm (txs.length + 1))
    (order'.perm (txs.length + 1)) hFirst hDomains key

/-- The number of a node after a commit stood under its key, or could come there. -/
theorem standsUnder_of_commit {im target : IndexManager} {o : IndexOverlay} {slotsPerDay : Int64}
    (hJournal : JournalFrom env.E slotsPerDay (· ∈ txs) o) (hReal : o.real = im)
    (hTarget : ∀ key node, target.tree.search key = some node →
      ∃ p, StandsUnder env.E im txs key p ∧ p.tid = node.1.tid)
    {range : List (Bytes × OverlayEntry) → List (Bytes × OverlayEntry)}
    (hRange : ∀ xs, (range xs).Perm xs) (key : Bytes) (node : Transaction × DomainMetadata)
    (hSearch : (o.commit env.E range target).tree.search key = some node) :
    ∃ p, StandsUnder env.E im txs key p ∧ p.tid = node.1.tid := by
  obtain ⟨m, hOld, -⟩ | ⟨d, entry, hEntry, rfl, hAdded, -⟩ :=
    node_commit_cases o hRange target hSearch
  · exact hTarget key (node.1, m) hOld
  · exact standsUnder_of_journal hJournal hReal hEntry (tx_of_addedTx hAdded)

/-- The search by number after a commit in two orders. -/
theorem getTxByID_installValidated (hApart : NumbersApart env.E s.index txs)
    (hJournal : JournalFrom env.E env.slotsPerDay (· ∈ txs) staged.im)
    (hReal : staged.im.real = s.index) (hKeys : KeysIn names staged.im)
    (hInj : Set.InjOn env.E.sha256 names) (txID : Int64) :
    (installValidated env order txs staged s).index.getTxByID txID =
      (installValidated env order' txs staged s).index.getTxByID txID := by
  have hNodes : ∀ key node,
      (installValidated env order txs staged s).index.tree.search key = some node →
      ∃ p, StandsUnder env.E s.index txs key p ∧ p.tid = node.1.tid := by
    refine standsUnder_of_commit hJournal hReal ?_ (order.perm (txs.length + 1))
    refine standsUnder_of_commit hJournal hReal ?_ (order.perm txs.length)
    exact fun key node hSearch => ⟨node.1, .inl ⟨node.2, hSearch⟩, rfl⟩
  refine AVLTree.findNodeByTxID_congr (search_installValidated hKeys hInj) ?_ txID
  intro key key' node node' hNode hNode' hTid
  obtain ⟨p, hp, hpTid⟩ := hNodes key node hNode
  obtain ⟨p', hp', hpTid'⟩ := hNodes key' node' hNode'
  exact hApart key key' p p' hp hp' (hpTid.trans (hTid.trans hpTid'.symm))

end Installed

/-! ## The theorem -/

/-- An UPDATE of the second domain with new records. -/
def splitUpdate : Transaction :=
  StandIn.registryTx { twinUpdate with records := [⟨utf8 "A", utf8 "5.6.7.8", 0⟩] }

def splitTxs : List Transaction :=
  [twinReveal 1 2 (utf8 "a.bdns"), twinReveal 2 3 (utf8 "b.bdns"), splitUpdate]

/-- The block of a leader for whom the second domain comes first. -/
def splitBlock : Block :=
  okOr (stageBlock StandIn.registryEnv reversedOrder (StandIn.leader (utf8 "registry") 4) twinTip.1
      twinTip.2 4 splitTxs >>=
    newBlock StandIn.registryEnv (StandIn.leader (utf8 "registry") 4) twinTip.2 4 splitTxs) twinTip.2

end Bdns.Safety
