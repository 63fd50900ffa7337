import Bdns.Blockchain.Signing
import Bdns.Index.IndexHash
import Bdns.Safety.Parallel

/-!
# The order of the records in a transaction

`SerializeForSigning` sorts a copy of the records, so a signature holds for every order of them.
The index stores the records as they came, and the index hash writes them in that order. Here two
lists of transactions that differ in the order of records only are applied side by side. The two
runs take the same branches, their overlays differ in the order of stored records only, and the
two hashes agree exactly where the stored records read the same.
-/

namespace Bdns.Safety

open Lib Blockchain Index Std

def RecordAlike (S : List Record → List Record → Prop) (r r' : DomainRecord) : Prop :=
  ∃ records, S r.records records ∧ r' = { r with records }

/-- Signatures hold for both transactions or for neither. -/
theorem verifySignature_alike {E : External} {tx tx' : Transaction}
    (h : TxAlike List.Perm tx tx') (key : Bytes) :
    verifySignature E key tx' = verifySignature E key tx := by
  obtain ⟨records, hPerm, rfl⟩ := h
  have hSort : sortRecords records = sortRecords tx.records := sortRecords_eq_iff.mpr hPerm.symm
  have hBytes : ({ tx with records } : Transaction).serializeForSigning =
      tx.serializeForSigning := by
    unfold Transaction.serializeForSigning
    dsimp only
    rw [hSort]
  unfold verifySignature
  rw [hBytes]

instance : Std.Refl (List.Perm : List Record → List Record → Prop) := ⟨.refl⟩

/-! ## The two passes -/

/-- The loops of two runs over journals with the same domains visit these in the same order. -/
def SameWalk (order order' : JournalOrder) : Prop :=
  ∀ i xs ys, xs.map Prod.fst = ys.map Prod.fst →
    (order.run i xs).map Prod.fst = (order'.run i ys).map Prod.fst

theorem sameWalk_ascending : SameWalk (.ascending _ _) (.ascending _ _) :=
  fun _ _ _ h => h

section Pass

variable {env : Env} {order order' : JournalOrder} {slot blockIndex : Int64}
  {txs txs' : List Transaction} {tx tx' : Transaction} {st st' : DomainState}

theorem sideBySide_position (hWalk : SameWalk order order') (hTx : TxAlike List.Perm tx tx')
    (hSt : StateAlike List.Perm Eq Eq st st') (i : Nat) :
    SideBySide List.Perm Eq Eq env.E (env.position order slot blockIndex i)
      (env.position order' slot blockIndex i) tx tx' st st' where
  transaction := hTx
  state := hSt
  position := ⟨i, order'.run i, rfl⟩
  redeems := redeemsOwnDomain_alike (hWalk i) hTx hSt.im
  lengths _ _ hPerm := hPerm.length_eq
  commits _ record _ := congrArg (CommitOverlay.addCommit · record) hSt.cs
  reveals _ := by
    rw [hSt.cs]
    exact ⟨rfl, rfl⟩
  pays _ price _ := by
    rw [hSt.ledger]
    exact .refl (.refl fun _ _ => rfl) _

theorem forall₂_zipIdx (h : List.Forall₂ (TxAlike List.Perm) txs txs') (n : Nat) :
    List.Forall₂ (fun e e' => TxAlike List.Perm e.1 e'.1 ∧ e.2 = e'.2) (txs.zipIdx n)
      (txs'.zipIdx n) := by
  induction h generalizing n with
  | nil => exact .nil
  | cons hFirst _ ih =>
    rw [List.zipIdx_cons, List.zipIdx_cons]
    exact .cons ⟨hFirst, rfl⟩ (ih (n + 1))

/-- Both passes panic, or both return, and the overlays differ in the order of records only. -/
theorem domainPass_alike (hTxs : List.Forall₂ (TxAlike List.Perm) txs txs')
    (hWalk : SameWalk order order') (hSt : StateAlike List.Perm Eq Eq st st') :
    Lockstep (StateAlike List.Perm Eq Eq) (domainPass env order slot blockIndex txs st)
      (domainPass env order' slot blockIndex txs' st') := by
  refine Lockstep.foldlM_forall₂ ?_ (forall₂_zipIdx hTxs 0) hSt
  rintro ⟨tx, i⟩ ⟨tx', i'⟩ ⟨hTx, hIndex⟩ st st' hSt
  obtain rfl : i = i' := hIndex
  exact .bind (sideBySide_position hWalk hTx hSt i).applyDomainMutations fun _ _ hNext => hNext

end Pass

/-! ## The merged records -/

section Merged

variable {S : List Record → List Record → Prop} [Std.Refl S] {E : External}

omit [Std.Refl S] in
theorem mergeEntry_alike {m m' : ExtTreeMap Bytes DomainRecord compare}
    (hMaps : ∀ key : Bytes, Option.Rel (RecordAlike S) m[key]? m'[key]?)
    {e e' : Bytes × OverlayEntry} (hEntry : e.1 = e'.1 ∧ EntryAlike S e.2 e'.2) (key : Bytes) :
    Option.Rel (RecordAlike S) (IndexOverlay.mergeEntry E m e)[key]?
      (IndexOverlay.mergeEntry E m' e')[key]? := by
  have hInsert : ∀ (hashed : Bytes) (r r' : DomainRecord), RecordAlike S r r' →
      Option.Rel (RecordAlike S) (m.insert hashed r)[key]? (m'.insert hashed r')[key]? := by
    intro hashed r r' hRecord
    rw [getElem?_insert_eq_ite, getElem?_insert_eq_ite]
    split
    · exact .some hRecord
    · exact hMaps key
  obtain ⟨d, entry⟩ := e
  obtain ⟨d', entry'⟩ := e'
  obtain ⟨rfl, hAlike⟩ := hEntry
  have hAdded := hAlike.addedTx
  obtain ⟨tx, txIndex, -, -, rfl⟩ := hAlike
  unfold IndexOverlay.mergeEntry
  dsimp only at hAdded ⊢
  generalize entry.addedTx = added at hAdded ⊢
  generalize OverlayEntry.addedTx _ = added' at hAdded ⊢
  cases hAdded with
  | some hTx =>
    obtain ⟨records, hRecords, rfl⟩ := hTx
    exact hInsert _ _ _ ⟨records, hRecords, rfl⟩
  | none =>
    have hOld := hMaps (hashDomain E d)
    dsimp only
    generalize m[hashDomain E d]? = old at hOld ⊢
    generalize m'[hashDomain E d]? = old' at hOld ⊢
    cases hOld with
    | none => exact hMaps key
    | some hRecord =>
      obtain ⟨records, hRecords, rfl⟩ := hRecord
      exact hInsert _ _ _ ⟨records, hRecords, rfl⟩

theorem OverlayAlike.merged {o o' : IndexOverlay} (h : OverlayAlike S o o') (key : Bytes) :
    Option.Rel (RecordAlike S) (o.merged E)[key]? (o'.merged E)[key]? := by
  obtain ⟨journal, txLocations, hJournal, rfl⟩ := h
  unfold IndexOverlay.merged
  dsimp only
  have hReal : ∀ key : Bytes, Option.Rel (RecordAlike S) (realRecords o.real.tree)[key]?
      (realRecords o.real.tree)[key]? := by
    intro key
    cases (realRecords o.real.tree)[key]? with
    | none => exact .none
    | some r => exact .some ⟨r.records, Std.Refl.refl _, rfl⟩
  have hFold : ∀ m m' : ExtTreeMap Bytes DomainRecord compare,
      (∀ key : Bytes, Option.Rel (RecordAlike S) m[key]? m'[key]?) →
      ∀ key : Bytes, Option.Rel (RecordAlike S)
        (o.journal.toList.foldl (IndexOverlay.mergeEntry E) m)[key]?
        (journal.toList.foldl (IndexOverlay.mergeEntry E) m')[key]? := by
    have hEntries := forall₂_toList hJournal
    generalize o.journal.toList = entries at hEntries ⊢
    generalize journal.toList = entries' at hEntries ⊢
    induction hEntries with
    | nil => exact fun m m' hMaps => hMaps
    | cons hFirst _ ih =>
      intro m m' hMaps
      exact ih _ _ (mergeEntry_alike hMaps hFirst)
  exact hFold _ _ hReal key

end Merged

/-! ## The text behind the hash -/

theorem length_intercalate (sep : Bytes) (parts : List Bytes) :
    (List.intercalate sep parts).length =
      (parts.map List.length).sum + (parts.length - 1) * sep.length := by
  induction parts with
  | nil => simp
  | cons part parts ih =>
    cases parts with
    | nil => simp
    | cons next parts =>
      rw [List.intercalate_cons_cons, List.length_append, List.length_append, ih]
      simp only [List.map_cons, List.sum_cons, List.length_cons, Nat.add_sub_cancel]
      ring

theorem length_recordsText {records records' : List Record} (h : records.Perm records') :
    (recordsText records).length = (recordsText records').length := by
  have hParts := h.map fun rec =>
    rec.type ++ utf8 ":" ++ rec.value ++ utf8 ":" ++ decimalInt rec.priority.toInt
  have hSum := (hParts.map List.length).sum_eq
  unfold recordsText
  rw [List.length_append, List.length_append, List.length_append, List.length_append,
    length_intercalate, length_intercalate, hSum, hParts.length_eq]

section Text

variable {r r' : DomainRecord}

theorem length_line (h : RecordAlike List.Perm r r') : r.line.length = r'.line.length := by
  obtain ⟨records, hPerm, rfl⟩ := h
  have hLength := length_recordsText hPerm
  simp only [DomainRecord.line, List.length_append]
  omega

theorem line_eq_iff (h : RecordAlike List.Perm r r') :
    r.line = r'.line ↔ recordsText r.records = recordsText r'.records := by
  obtain ⟨records, hPerm, rfl⟩ := h
  simp only [DomainRecord.line, List.append_assoc, List.append_cancel_left_eq]
  constructor
  · intro hEq
    exact (List.append_inj hEq (length_recordsText hPerm)).1
  · intro hEq
    rw [hEq]

/-- Two lists of records in the order of their domains, alike but for the order of the DNS records:
the texts are equal only where these read the same. -/
theorem indexText_eq_iff {rs rs' : List DomainRecord}
    (h : List.Forall₂ (RecordAlike List.Perm) rs rs') :
    indexText rs = indexText rs' ↔
      ∀ p ∈ rs.zip rs', recordsText p.1.records = recordsText p.2.records := by
  let le : DomainRecord → DomainRecord → Prop := fun a b => (compare a.domain b.domain).isLE
  have hLe : ∀ a a' b b', RecordAlike List.Perm a a' → RecordAlike List.Perm b b' →
      (le a b ↔ le a' b') := by
    rintro a a' b b' ⟨records, -, rfl⟩ ⟨records', -, rfl⟩
    rfl
  obtain ⟨hLeft, hRight⟩ := insertionSort_zip hLe h
  have hPerm := List.perm_insertionSort
    (fun p q : DomainRecord × DomainRecord => le p.1 q.1) (rs.zip rs')
  have hAlike : ∀ p ∈ (rs.zip rs').insertionSort fun p q => le p.1 q.1,
      RecordAlike List.Perm p.1 p.2 :=
    fun p hp => (List.forall₂_iff_zip.mp h).2 (hPerm.mem_iff.mp hp)
  unfold indexText
  rw [hLeft, hRight, List.flatMap_map, List.flatMap_map,
    flatMap_eq_iff_of_length fun p hp => length_line (hAlike p hp)]
  constructor
  · intro hLines p hp
    have hp' := hPerm.mem_iff.mpr hp
    exact (line_eq_iff (hAlike p hp')).mp (hLines p hp')
  · intro hTexts p hp
    exact (line_eq_iff (hAlike p hp)).mpr (hTexts p (hPerm.mem_iff.mp hp))

end Text

/-! ## The two hashes -/

section Hashes

variable {E : External} {o o' : IndexOverlay}

/-- The hashes agree exactly where the merged records read the same. -/
theorem getIndexHash_eq_iff_merged (h : OverlayAlike List.Perm o o')
    (hInj : Set.InjOn E.sha256 {indexText ((o.merged E).toList.map Prod.snd),
      indexText ((o'.merged E).toList.map Prod.snd)}) :
    o.getIndexHash E = o'.getIndexHash E ↔
      ∀ (key : Bytes) (r r' : DomainRecord), (o.merged E)[key]? = some r →
        (o'.merged E)[key]? = some r' → recordsText r.records = recordsText r'.records := by
  have hMerged := @OverlayAlike.merged _ _ E _ _ h
  have hValues : List.Forall₂ (RecordAlike List.Perm) ((o.merged E).toList.map Prod.snd)
      ((o'.merged E).toList.map Prod.snd) := by
    rw [List.forall₂_map_left_iff, List.forall₂_map_right_iff]
    exact (forall₂_toList hMerged).imp fun _ _ hEntry => hEntry.2
  unfold IndexOverlay.getIndexHash
  rw [hashRecords_eq_iff hInj, indexText_eq_iff hValues]
  constructor
  · intro hTexts key r r' hGet hGet'
    exact hTexts (r, r') ((mem_zip_values_iff hMerged).mpr ⟨key, hGet, hGet'⟩)
  · rintro hTexts ⟨r, r'⟩ hMem
    obtain ⟨key, hGet, hGet'⟩ := (mem_zip_values_iff hMerged).mp hMem
    exact hTexts key r r' hGet hGet'

/-- The text of the records that the overlay has for a domain. -/
def storedText (E : External) (o : IndexOverlay) (d : Bytes) : Option Bytes :=
  (o.getDomain E d).map fun tx => recordsText tx.records

theorem getElem?_mergeEntry_of_ne {m : ExtTreeMap Bytes DomainRecord compare}
    {e : Bytes × OverlayEntry} {key : Bytes} (hNe : hashDomain E e.1 ≠ key) :
    (IndexOverlay.mergeEntry E m e)[key]? = m[key]? := by
  unfold IndexOverlay.mergeEntry
  dsimp only
  cases e.2.addedTx with
  | some tx => rw [getElem?_insert_eq_ite, if_neg hNe]
  | none =>
    cases m[hashDomain E e.1]? with
    | none => rfl
    | some existing => rw [getElem?_insert_eq_ite, if_neg hNe]

/-- A transaction that was added gives its records to the merged ones, unless another domain of the
journal has the same digest. -/
theorem merged_of_added (hNames : Set.InjOn (hashDomain E) {d | o.journal[d]?.isSome})
    {d : Bytes} {entry : OverlayEntry} {tx : Transaction} (hGet : o.journal[d]? = some entry)
    (hAdded : entry.addedTx = some tx) :
    ∃ r, (o.merged E)[hashDomain E d]? = some r ∧ r.records = tx.records := by
  have hMem := ExtTreeMap.mem_toList_iff_getElem?_eq_some.mpr hGet
  obtain ⟨before, after, hSplit⟩ := List.append_of_mem hMem
  -- the entries after this one are of other domains
  have hAfter : ∀ e ∈ after, hashDomain E e.1 ≠ hashDomain E d := by
    intro e he hEq
    have hEntry : o.journal[e.1]? = some e.2 := by
      rw [← ExtTreeMap.mem_toList_iff_getElem?_eq_some, hSplit]
      simp [he]
    have hSame : e.1 = d := hNames (Option.isSome_iff_exists.mpr ⟨e.2, hEntry⟩)
      (Option.isSome_iff_exists.mpr ⟨entry, hGet⟩) hEq
    have hDistinct := ExtTreeMap.distinct_keys_toList (t := o.journal)
    rw [hSplit, List.pairwise_append, List.pairwise_cons] at hDistinct
    exact hDistinct.2.1.1 e he (by rw [hSame]; exact ReflCmp.compare_self)
  have hFold : ∀ (entries : List (Bytes × OverlayEntry)) (m : ExtTreeMap Bytes DomainRecord compare),
      (∀ e ∈ entries, hashDomain E e.1 ≠ hashDomain E d) →
      (entries.foldl (IndexOverlay.mergeEntry E) m)[hashDomain E d]? = m[hashDomain E d]? := by
    intro entries
    induction entries with
    | nil => exact fun m _ => rfl
    | cons e entries ih =>
      intro m hNe
      rw [List.foldl_cons, ih _ fun e' he' => hNe e' (List.mem_cons_of_mem _ he'),
        getElem?_mergeEntry_of_ne (hNe e List.mem_cons_self)]
  unfold IndexOverlay.merged
  rw [hSplit, List.foldl_append, List.foldl_cons, hFold after _ hAfter]
  simp [IndexOverlay.mergeEntry, hAdded]

theorem OverlayAlike.injOn_hashDomain {S : List Record → List Record → Prop}
    (h : OverlayAlike S o o') (hNames : Set.InjOn (hashDomain E) {d | o.journal[d]?.isSome}) :
    Set.InjOn (hashDomain E) {d | o'.journal[d]?.isSome} := by
  obtain ⟨journal, txLocations, hJournal, rfl⟩ := h
  have hKeys : {d : Bytes | journal[d]?.isSome} = {d | o.journal[d]?.isSome} := by
    ext d
    rw [Set.mem_ofPred_eq, Set.mem_ofPred_eq, isSome_eq_of_rel (hJournal d)]
  rwa [hKeys]

instance : Std.Refl fun records records' : List Record =>
    recordsText records = recordsText records' := ⟨fun _ => rfl⟩

theorem OverlayAlike.of_storedText (h : OverlayAlike List.Perm o o')
    (hStored : ∀ d, storedText E o d = storedText E o' d) :
    OverlayAlike (fun records records' => recordsText records = recordsText records') o o' := by
  have hEntries := h.entry_cases
  obtain ⟨journal, txLocations, hJournal, rfl⟩ := h
  refine ⟨journal, txLocations, fun d => ?_, rfl⟩
  have hText := hStored d
  unfold storedText IndexOverlay.getDomain at hText
  obtain ⟨hGet, hGet'⟩ | ⟨e, e', hGet, hGet', tx', txIndex, hTx, hReal, rfl⟩ := hEntries d
  · rw [hGet, hGet']
    exact .none
  · rw [hGet, hGet'] at hText ⊢
    refine .some ⟨tx', txIndex, ?_, hReal, rfl⟩
    dsimp only at hText
    generalize e.tx = tx at hTx hText ⊢
    cases hTx with
    | none => exact .none
    | some hAlike =>
      obtain ⟨records, -, rfl⟩ := hAlike
      exact .some ⟨records, Option.some.inj hText, rfl⟩

/-- The hashes agree exactly where the two runs have stored records that read the same. -/
theorem getIndexHash_eq_iff (h : OverlayAlike List.Perm o o')
    (hNames : Set.InjOn (hashDomain E) {d | o.journal[d]?.isSome})
    (hInj : Set.InjOn E.sha256 {indexText ((o.merged E).toList.map Prod.snd),
      indexText ((o'.merged E).toList.map Prod.snd)}) :
    o.getIndexHash E = o'.getIndexHash E ↔ ∀ d, storedText E o d = storedText E o' d := by
  rw [getIndexHash_eq_iff_merged h hInj]
  constructor
  · intro hMerged d
    unfold storedText IndexOverlay.getDomain
    obtain ⟨hGet, hGet'⟩ | ⟨e, e', hGet, hGet', tx', txIndex, hTx, hReal, rfl⟩ := h.entry_cases d
    · obtain ⟨txLocations, hRelocated⟩ := h.real_eq
      rw [hGet, hGet', hRelocated]
      rfl
    · rw [hGet, hGet']
      dsimp only
      cases hAdded : e.added with
      | false => rw [hReal hAdded]
      | true =>
        cases hOld : e.tx with
        | none =>
          rw [hOld] at hTx
          cases hTx
          rfl
        | some tx =>
          rw [hOld] at hTx
          cases hTx with
          | @some _ tx' hAlike =>
            obtain ⟨r, hr, hRecords⟩ := merged_of_added hNames hGet
              (OverlayEntry.addedTx_eq_some.mpr ⟨hAdded, hOld⟩)
            obtain ⟨r', hr', hRecords'⟩ := merged_of_added (h.injOn_hashDomain hNames) hGet'
              (OverlayEntry.addedTx_eq_some.mpr ⟨hAdded, rfl⟩)
            have hText := hMerged _ r r' hr hr'
            rw [hRecords, hRecords'] at hText
            rw [Option.map_some, Option.map_some, hText]
  · intro hStored key r r' hGet hGet'
    have hRecord := @OverlayAlike.merged _ _ E _ _ (h.of_storedText hStored) key
    rw [hGet, hGet'] at hRecord
    cases hRecord with
    | some hAlike =>
      obtain ⟨records, hText, rfl⟩ := hAlike
      exact hText

end Hashes

/-- What the index hash hashes. -/
def hashedText (E : External) (o : IndexOverlay) : Bytes :=
  indexText ((o.merged E).toList.map Prod.snd)

/-- SHA-256 tells the two texts apart, and the domains of the journal. -/
structure NoCollision (E : External) (o o' : IndexOverlay) : Prop where
  texts : Set.InjOn E.sha256 {hashedText E o, hashedText E o'}
  names : Set.InjOn (hashDomain E) {d | o.journal[d]?.isSome}

namespace StandIn

def orderEnv : Env := ⟨.standIn fun _ => none, [], 1⟩

/-- A state in which `owner` has `a.bdns`. -/
def ownedState : DomainState where
  ledger := {}
  im := .newIndexOverlay
    ((({} : IndexManager).add orderEnv.E (utf8 "a.bdns")
      { tid := 1, type := .reveal, domainName := utf8 "a.bdns", expirySlot := 100 } 0 0 1).setOwner
        orderEnv.E (utf8 "a.bdns") (some (utf8 "owner")))
  cs := openCommits {} 2

/-- An UPDATE of the owner. -/
def recordsUpdate (records : List Record) : Transaction :=
  Blockchain.StandIn.signAs (utf8 "owner")
    { tid := 2, type := .update, domainName := utf8 "a.bdns", records, expirySlot := 100
      redeemsTxID := 1, ownerKey := utf8 "owner" }

def afterUpdate (records : List Record) : Go DomainState :=
  domainPass orderEnv (.ascending _ _) 2 2 [recordsUpdate records] ownedState

end StandIn

open StandIn

theorem recordsUpdate_reordered : TxAlike List.Perm (recordsUpdate [mailRecord, hostRecord])
    (recordsUpdate [hostRecord, mailRecord]) :=
  ⟨[hostRecord, mailRecord], .swap _ _ _, by decide +kernel⟩

end Bdns.Safety
