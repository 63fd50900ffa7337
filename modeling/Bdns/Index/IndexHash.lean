import Bdns.Blockchain.StandIn
import Bdns.Index.IndexOverlay

/-!
# The index hash of an overlay and that of the index it is committed to

The overlay hashes the records of the real index under their names and adds those of its
journal under hashed names. The hash agrees with that of the committed index exactly when the
journal leaves the index as it is.
-/

namespace Bdns.Index

open Lib Blockchain Std

/-! ## The text behind the hash -/

theorem DomainRecord.line_ne_nil (r : DomainRecord) : r.line ≠ [] := by
  simp [DomainRecord.line, utf8_newline]

theorem indexText_eq_nil {rs : List DomainRecord} : indexText rs = [] ↔ rs = [] := by
  unfold indexText
  constructor
  · intro h
    have hSorted : rs.insertionSort (fun a b => (compare a.domain b.domain).isLE) = [] := by
      rw [List.flatMap_eq_nil_iff] at h
      exact List.eq_nil_iff_forall_not_mem.mpr fun r hr => r.line_ne_nil (h r hr)
    exact List.length_eq_zero_iff.mp (by
      rw [← List.length_insertionSort (fun a b => (compare a.domain b.domain).isLE = true), hSorted]
      rfl)
  · rintro rfl
    rfl

/-- The index hash commits to the text. -/
theorem hashRecords_eq_iff {E : External} {a b : List DomainRecord}
    (hInj : Set.InjOn E.sha256 {indexText a, indexText b}) :
    hashRecords E a = hashRecords E b ↔ indexText a = indexText b := by
  have hDigest : ∀ x, E.sha256 x ≠ [] := fun x hx => by simpa [hx] using E.sha256_length x
  unfold hashRecords
  by_cases ha : a = []
  · subst ha
    by_cases hb : b = []
    · simp [hb]
    · have hLen : ¬ b.length = 0 := fun h => hb (List.length_eq_zero_iff.mp h)
      rw [List.length_nil, if_pos rfl, if_neg hLen]
      constructor
      · exact fun h => absurd h.symm (hDigest _)
      · exact fun h => absurd (indexText_eq_nil.mp h.symm) hb
  · have hLen : ¬ a.length = 0 := fun h => ha (List.length_eq_zero_iff.mp h)
    rw [if_neg hLen]
    by_cases hb : b = []
    · subst hb
      rw [List.length_nil, if_pos rfl]
      constructor
      · exact fun h => absurd h (hDigest _)
      · exact fun h => absurd (indexText_eq_nil.mp h) ha
    · have hLen' : ¬ b.length = 0 := fun h => hb (List.length_eq_zero_iff.mp h)
      rw [if_neg hLen']
      exact ⟨fun h => hInj (by simp) (by simp) h, fun h => by rw [h]⟩

theorem indexText_eq_of_perm {a b : List DomainRecord} (hPerm : a.Perm b)
    (hNodup : (a.map DomainRecord.domain).Nodup) : indexText a = indexText b :=
  congrArg (List.flatMap DomainRecord.line) (insertionSort_eq_of_perm hPerm hNodup)

/-! ### Reading the text back -/

/-- The line up to the list price. -/
def DomainRecord.fixedPart (r : DomainRecord) : Bytes :=
  r.domain ++ utf8 ":" ++ decimalInt r.expirySlot.toInt ++ utf8 ":" ++ recordsText r.records ++
    utf8 ":"

theorem DomainRecord.line_eq (r : DomainRecord) :
    r.line = r.fixedPart ++ (decimal r.listPrice.toNat ++
      58 :: (hexEncode (r.ownerKey.getD []) ++ [10])) := by
  simp [DomainRecord.line, DomainRecord.fixedPart, utf8_colon, utf8_newline]

/-- Where the fixed parts of two lines agree, the price and the owner can be read off. -/
theorem line_append_inj {r r' : DomainRecord} {x y : Bytes} (hFixed : r.fixedPart = r'.fixedPart)
    (h : r.line ++ x = r'.line ++ y) :
    r.listPrice = r'.listPrice ∧ r.ownerKey.getD [] = r'.ownerKey.getD [] ∧ x = y := by
  simp only [DomainRecord.line_eq, hFixed, List.append_assoc, List.append_cancel_left_eq,
    List.cons_append, List.nil_append] at h
  obtain ⟨hPrice, h⟩ := append_sep_inj ((decimal_alnum _).not_mem (by decide))
    ((decimal_alnum _).not_mem (by decide)) h
  obtain ⟨hOwner, hRest⟩ := append_sep_inj ((hexEncode_alnum _).not_mem (by decide))
    ((hexEncode_alnum _).not_mem (by decide)) h
  exact ⟨UInt64.toNat_inj.mp (decimal_injective hPrice), hexEncode_injective hOwner, hRest⟩

/-- Updating prices and owners in place changes the text unless it changes no line. -/
theorem flatMap_line_update {upd : DomainRecord → DomainRecord} {rs : List DomainRecord}
    (hFixed : ∀ r ∈ rs, (upd r).fixedPart = r.fixedPart)
    (h : rs.flatMap DomainRecord.line = (rs.map upd).flatMap DomainRecord.line) :
    ∀ r ∈ rs, r.listPrice = (upd r).listPrice ∧ r.ownerKey.getD [] = (upd r).ownerKey.getD [] := by
  induction rs with
  | nil => simp
  | cons r rs ih =>
    simp only [List.flatMap_cons, List.map_cons] at h
    obtain ⟨hPrice, hOwner, hRest⟩ := line_append_inj (hFixed r List.mem_cons_self).symm h
    intro r' hr'
    rcases List.mem_cons.mp hr' with rfl | hr'
    · exact ⟨hPrice, hOwner⟩
    · exact ih (fun r hr => hFixed r (List.mem_cons_of_mem _ hr)) hRest r' hr'

/-- No field of the record breaks the line, and the name ends at the first colon. -/
structure DomainRecord.Plain (r : DomainRecord) : Prop where
  name : (58 : UInt8) ∉ r.domain ∧ (10 : UInt8) ∉ r.domain
  fields : ∀ rec ∈ r.records, (10 : UInt8) ∉ rec.type ∧ (10 : UInt8) ∉ rec.value

theorem not_mem_intercalate {sep : Bytes} {c : UInt8} (hSep : c ∉ sep) {parts : List Bytes}
    (hParts : ∀ p ∈ parts, c ∉ p) : c ∉ List.intercalate sep parts := by
  induction parts with
  | nil => simp
  | cons p parts ih =>
    have hRest := ih fun q hq => hParts q (List.mem_cons_of_mem _ hq)
    have hp := hParts p List.mem_cons_self
    cases parts with
    | nil => simpa using hp
    | cons q parts => simp [List.intercalate_cons_cons, hp, hSep, hRest]

theorem newline_not_mem_recordsText {records : List Record}
    (h : ∀ rec ∈ records, (10 : UInt8) ∉ rec.type ∧ (10 : UInt8) ∉ rec.value) :
    (10 : UInt8) ∉ recordsText records := by
  have hOpen : (10 : UInt8) ∉ utf8 "[" := by decide +kernel
  have hClose : (10 : UInt8) ∉ utf8 "]" := by decide +kernel
  have hBar : (10 : UInt8) ∉ utf8 "|" := by decide +kernel
  have hParts : (10 : UInt8) ∉ List.intercalate (utf8 "|") (records.map fun rec =>
      rec.type ++ utf8 ":" ++ rec.value ++ utf8 ":" ++ decimalInt rec.priority.toInt) := by
    refine not_mem_intercalate hBar fun p hp => ?_
    obtain ⟨rec, hRec, rfl⟩ := List.mem_map.mp hp
    have hDec := not_mem_decimalInt (c := 10) (by decide) (by decide) rec.priority.toInt
    simp [utf8_colon, h rec hRec, hDec]
  simp only [recordsText, List.mem_append, not_or]
  exact ⟨⟨hOpen, hParts⟩, hClose⟩

/-- The line without its end. -/
def DomainRecord.body (r : DomainRecord) : Bytes :=
  r.fixedPart ++ (decimal r.listPrice.toNat ++ 58 :: hexEncode (r.ownerKey.getD []))

theorem DomainRecord.Plain.newline_not_mem {r : DomainRecord} (h : r.Plain) :
    (10 : UInt8) ∉ r.body := by
  have hSlot := not_mem_decimalInt (c := 10) (by decide) (by decide) r.expirySlot.toInt
  have hPrice := (decimal_alnum r.listPrice.toNat).not_mem (c := 10) (by decide)
  have hOwner := (hexEncode_alnum (r.ownerKey.getD [])).not_mem (c := 10) (by decide)
  simp [DomainRecord.body, DomainRecord.fixedPart, utf8_colon, h.name.2, hSlot,
    newline_not_mem_recordsText h.fields, hPrice, hOwner]

/-- From the text of plain records their names can be read off. -/
theorem names_eq_of_flatMap_eq {a b : List DomainRecord} (ha : ∀ r ∈ a, r.Plain)
    (hb : ∀ r ∈ b, r.Plain) (h : a.flatMap DomainRecord.line = b.flatMap DomainRecord.line) :
    a.map DomainRecord.domain = b.map DomainRecord.domain := by
  refine map_eq_of_flatMap_eq DomainRecord.domain DomainRecord.line_ne_nil ?_ ha hb h
  intro r r' x y hr hr' hText
  have hLine : ∀ r : DomainRecord, r.line = r.body ++ [10] := fun r => by
    simp [DomainRecord.line_eq, DomainRecord.body]
  simp only [hLine, List.append_assoc, List.singleton_append] at hText
  obtain ⟨hBody, hRest⟩ := append_sep_inj hr.newline_not_mem hr'.newline_not_mem hText
  simp only [DomainRecord.body, DomainRecord.fixedPart, utf8_colon, List.append_assoc,
    List.singleton_append] at hBody
  exact ⟨(append_sep_inj hr.name.1 hr'.name.1 hBody).1, hRest⟩

theorem names_perm_of_indexText_eq {a b : List DomainRecord} (ha : ∀ r ∈ a, r.Plain)
    (hb : ∀ r ∈ b, r.Plain) (h : indexText a = indexText b) :
    ∀ name, name ∈ a.map DomainRecord.domain → name ∈ b.map DomainRecord.domain := by
  let le : DomainRecord → DomainRecord → Prop := fun a b => (compare a.domain b.domain).isLE
  have hPermA := List.perm_insertionSort le a
  have hPermB := List.perm_insertionSort le b
  have hNames := names_eq_of_flatMap_eq (fun r hr => ha r (hPermA.mem_iff.mp hr))
    (fun r hr => hb r (hPermB.mem_iff.mp hr)) h
  intro name hName
  rw [← (hPermA.map DomainRecord.domain).mem_iff, hNames,
    (hPermB.map DomainRecord.domain).mem_iff] at hName
  exact hName

/-! ## The records of the index -/

/-- The node of a domain is found under its name. All callers of `Add` keep this. -/
def WellIndexed (E : External) (t : AVLTree) : Prop :=
  ∀ e ∈ t.root.inOrder, e.1 = hashDomain E e.2.1.domainName

theorem WellIndexed.names_nodup {E : External} {t : AVLTree} (h : WellIndexed E t) :
    ((getAllRecords t).map DomainRecord.domain).Nodup := by
  rw [getAllRecords, List.map_map]
  refine List.pairwise_map.mpr (t.ordered.imp_of_mem ?_)
  intro a b ha hb hLt hEq
  simp only [Function.comp_apply] at hEq
  rw [h a ha, h b hb, hEq] at hLt
  exact absurd (hLt.symm.trans ReflCmp.compare_self) (by decide)

/-- What the committed index says about a domain of the real one. -/
def updateFrom (E : External) (t : AVLTree) (r : DomainRecord) : DomainRecord :=
  let m := ((t.search (hashDomain E r.domain)).map Prod.snd).getD {}
  { r with listPrice := m.listPrice, ownerKey := m.ownerKey }

/-- A tree that differs from another in the metadata only. -/
theorem getAllRecords_of_entries_eq {E : External} {t t' : AVLTree} (h : WellIndexed E t)
    (hEntries : t'.root.entries = t.root.entries) :
    getAllRecords t' = (getAllRecords t).map (updateFrom E t') := by
  have hMeta : t'.root.inOrder = t'.root.entries.map fun e =>
      (e.1, (e.2, ((t'.search e.1).map Prod.snd).getD {})) := by
    rw [AVLNode.entries, List.map_map]
    conv_lhs => rw [← List.map_id t'.root.inOrder]
    refine List.map_congr_left fun e he => ?_
    simp [t'.search_of_mem he]
  rw [getAllRecords, hMeta, hEntries, getAllRecords, AVLNode.entries]
  simp only [List.map_map]
  refine List.map_congr_left fun e he => ?_
  simp [updateFrom, h e he]

/-! ## Runs of overlay operations -/

/-- The writes that block application makes through an overlay. -/
inductive OverlayOp where
  | add (domain : Bytes) (tx : Transaction) (blockIndex : Int64) (txIndex : Nat)
      (slotsPerDay : Int64)
  | setOwner (domain : Bytes) (ownerKey : Option Bytes)
  | setListPrice (domain : Bytes) (price : UInt64)
  | markAsSpent (txID : Int64)

namespace OverlayOp

def apply (E : External) (o : IndexOverlay) : OverlayOp → IndexOverlay
  | add domain tx blockIndex txIndex slotsPerDay =>
    o.add domain tx blockIndex txIndex slotsPerDay
  | setOwner domain ownerKey => o.setOwner E domain ownerKey
  | setListPrice domain price => o.setListPrice E domain price
  | markAsSpent txID => o.markAsSpent txID

/-- The domain an operation names. -/
def domain? : OverlayOp → Option Bytes
  | add domain _ _ _ _ => some domain
  | setOwner domain _ => some domain
  | setListPrice domain _ => some domain
  | markAsSpent _ => none

def isAdd : OverlayOp → Bool
  | add .. => true
  | _ => false

/-- An addition carries a transaction of its domain, with a plain record. -/
def Sound : OverlayOp → Prop
  | add domain tx _ _ _ =>
    tx.domainName = domain ∧ ((58 : UInt8) ∉ domain ∧ (10 : UInt8) ∉ domain) ∧
      ∀ rec ∈ tx.records, (10 : UInt8) ∉ rec.type ∧ (10 : UInt8) ∉ rec.value
  | _ => True

end OverlayOp

/-- The overlay after a run of operations. -/
def runOps (E : External) (o : IndexOverlay) (ops : List OverlayOp) : IndexOverlay :=
  ops.foldl (OverlayOp.apply E) o

/-- What a run leaves in the journal: entries of the domains it named, with the transactions it
added. -/
structure Journaled (E : External) (real : IndexManager) (ops : List OverlayOp)
    (o : IndexOverlay) : Prop where
  real_eq : o.real = real
  named : ∀ (d : Bytes) (entry : OverlayEntry), o.journal[d]? = some entry →
    ∃ op ∈ ops, op.domain? = some d
  added : ∀ (d : Bytes) (entry : OverlayEntry) (tx : Transaction),
    o.journal[d]? = some entry → entry.addedTx = some tx →
    ∃ blockIndex txIndex slotsPerDay, OverlayOp.add d tx blockIndex txIndex slotsPerDay ∈ ops
  kept : (∃ op ∈ ops, op.isAdd) →
    ∃ (d : Bytes) (entry : OverlayEntry), o.journal[d]? = some entry ∧ entry.addedTx.isSome

theorem OverlayEntry.addedTx_eq_some {entry : OverlayEntry} {tx : Transaction} :
    entry.addedTx = some tx ↔ entry.added = true ∧ entry.tx = some tx := by
  unfold OverlayEntry.addedTx
  split <;> simp_all

/-- A write to the owner or the price keeps what was added. -/
theorem Journaled.write {E : External} {real : IndexManager} {ops : List OverlayOp}
    {o : IndexOverlay} (h : Journaled E real ops o) {op : OverlayOp} {d : Bytes}
    (hDomain : op.domain? = some d) (hAdd : op.isAdd = false) {entry : OverlayEntry}
    (hTx : entry.tx = (o.entryFor E d).tx) (hAdded : entry.added = (o.entryFor E d).added) :
    Journaled E real (ops ++ [op]) { o with journal := o.journal.insert d entry } := by
  have hOld : ∀ tx, entry.addedTx = some tx →
      ∃ old, o.journal[d]? = some old ∧ old.addedTx = some tx := by
    intro tx hEntry
    rw [OverlayEntry.addedTx_eq_some, hTx, hAdded] at hEntry
    unfold IndexOverlay.entryFor at hEntry
    cases hGet : o.journal[d]? with
    | none => simp [hGet] at hEntry
    | some old => exact ⟨old, rfl, OverlayEntry.addedTx_eq_some.mpr (by simpa [hGet] using hEntry)⟩
  refine ⟨h.real_eq, ?_, ?_, ?_⟩
  · intro d' entry' hGet
    rw [getElem?_insert_eq_ite] at hGet
    split at hGet
    · rename_i hd
      exact ⟨op, by simp, hd ▸ hDomain⟩
    · obtain ⟨op', hMem, hOp⟩ := h.named d' entry' hGet
      exact ⟨op', by simp [hMem], hOp⟩
  · intro d' entry' tx hGet hAddedTx
    have hPrev : ∃ old, o.journal[d']? = some old ∧ old.addedTx = some tx := by
      rw [getElem?_insert_eq_ite] at hGet
      split at hGet
      · rename_i hd
        obtain rfl := Option.some.inj hGet
        exact hd ▸ hOld tx hAddedTx
      · exact ⟨entry', hGet, hAddedTx⟩
    obtain ⟨old, hOldGet, hOldTx⟩ := hPrev
    obtain ⟨b, i, s, hMem⟩ := h.added d' old tx hOldGet hOldTx
    exact ⟨b, i, s, by simp [hMem]⟩
  · rintro ⟨op', hMem, hIsAdd⟩
    rcases List.mem_append.mp hMem with hMem | hMem
    · obtain ⟨d', old, hGet, hSome⟩ := h.kept ⟨op', hMem, hIsAdd⟩
      by_cases hd : d = d'
      · subst hd
        refine ⟨d, entry, by simp, ?_⟩
        obtain ⟨tx, hTxOld⟩ := Option.isSome_iff_exists.mp hSome
        have hBoth := OverlayEntry.addedTx_eq_some.mp hTxOld
        have hEntry : o.entryFor E d = old := by simp [IndexOverlay.entryFor, hGet]
        exact Option.isSome_iff_exists.mpr ⟨tx, OverlayEntry.addedTx_eq_some.mpr
          ⟨by rw [hAdded, hEntry, hBoth.1], by rw [hTx, hEntry, hBoth.2]⟩⟩
      · exact ⟨d', old, by simpa [getElem?_insert_eq_ite, hd] using hGet, hSome⟩
    · rw [List.mem_singleton.mp hMem, hAdd] at hIsAdd
      exact absurd hIsAdd (by decide)

theorem Journaled.apply {E : External} {real : IndexManager} {ops : List OverlayOp}
    {o : IndexOverlay} (h : Journaled E real ops o) (op : OverlayOp) :
    Journaled E real (ops ++ [op]) (op.apply E o) := by
  cases op with
  | add d tx blockIndex txIndex slotsPerDay =>
    refine ⟨h.real_eq, ?_, ?_, ?_⟩
    · intro d' entry' hGet
      simp only [OverlayOp.apply, IndexOverlay.add, getElem?_insert_eq_ite] at hGet
      split at hGet
      · rename_i hd
        exact ⟨_, List.mem_append_right _ (List.mem_singleton_self _), hd ▸ rfl⟩
      · obtain ⟨op', hMem, hOp⟩ := h.named d' entry' hGet
        exact ⟨op', by simp [hMem], hOp⟩
    · intro d' entry' tx' hGet hAddedTx
      simp only [OverlayOp.apply, IndexOverlay.add, getElem?_insert_eq_ite] at hGet
      split at hGet
      · rename_i hd
        obtain rfl := Option.some.inj hGet
        obtain rfl : tx = tx' := by simpa [OverlayEntry.addedTx] using hAddedTx
        exact ⟨blockIndex, txIndex, slotsPerDay, by simp [hd]⟩
      · obtain ⟨b, i, s, hMem⟩ := h.added d' entry' tx' hGet hAddedTx
        exact ⟨b, i, s, by simp [hMem]⟩
    · intro _
      refine ⟨d, { (o.journal[d]?).getD {} with tx := some tx, added := true, blockIndex, txIndex },
        ?_, rfl⟩
      simp [OverlayOp.apply, IndexOverlay.add]
  | setOwner d ownerKey => exact h.write (d := d) rfl rfl rfl rfl
  | setListPrice d price => exact h.write (d := d) rfl rfl rfl rfl
  | markAsSpent txID =>
    refine ⟨h.real_eq, ?_, ?_, ?_⟩
    · intro d entry hGet
      obtain ⟨op', hMem, hOp⟩ := h.named d entry hGet
      exact ⟨op', by simp [hMem], hOp⟩
    · intro d entry tx hGet hAddedTx
      obtain ⟨b, i, s, hMem⟩ := h.added d entry tx hGet hAddedTx
      exact ⟨b, i, s, by simp [hMem]⟩
    · rintro ⟨op', hMem, hIsAdd⟩
      rcases List.mem_append.mp hMem with hMem | hMem
      · exact h.kept ⟨op', hMem, hIsAdd⟩
      · rw [List.mem_singleton.mp hMem] at hIsAdd
        exact absurd hIsAdd Bool.false_ne_true

theorem journaled_runOps (E : External) (real : IndexManager) (ops : List OverlayOp) :
    Journaled E real ops (runOps E (.newIndexOverlay real) ops) := by
  induction ops using List.reverseRecOn with
  | nil => exact ⟨rfl, by simp [runOps, IndexOverlay.newIndexOverlay],
      by simp [runOps, IndexOverlay.newIndexOverlay], by simp⟩
  | append_singleton ops op ih =>
    rw [runOps, List.foldl_append, List.foldl_cons, List.foldl_nil]
    exact ih.apply op

/-! ## The records of the overlay -/

/-- The real index's part of the merged records. -/
def realRecords (t : AVLTree) : ExtTreeMap Bytes DomainRecord compare :=
  (getAllRecords t).foldl (fun m r => m.insert r.domain r) ∅

theorem realRecords_perm {E : External} {t : AVLTree} (h : WellIndexed E t) :
    ((realRecords t).toList.map Prod.snd).Perm (getAllRecords t) := by
  have hPerm := toList_foldl_insert_perm
    (m := (∅ : ExtTreeMap Bytes DomainRecord compare)) h.names_nodup (by simp)
  have hEmpty : (∅ : ExtTreeMap Bytes DomainRecord compare).toList = [] := rfl
  rwa [hEmpty] at hPerm

/-- Without additions the overlay hashes the real index: the hashed names meet no record. -/
theorem merged_of_no_add {E : External} {o : IndexOverlay}
    (hNoAdd : ∀ (d : Bytes) (entry : OverlayEntry), o.journal[d]? = some entry →
      entry.addedTx = none)
    (hNames : ∀ (d : Bytes) (entry : OverlayEntry), o.journal[d]? = some entry →
      hashDomain E d ∉ (getAllRecords o.real.tree).map DomainRecord.domain) :
    o.merged E = realRecords o.real.tree := by
  have hFold : ∀ entries : List (Bytes × OverlayEntry),
      (∀ e ∈ entries, o.journal[e.1]? = some e.2) →
      entries.foldl (IndexOverlay.mergeEntry E) (realRecords o.real.tree) =
        realRecords o.real.tree := by
    intro entries hEntries
    induction entries with
    | nil => rfl
    | cons e entries ih =>
      have hGet := hEntries e List.mem_cons_self
      have hNone : (realRecords o.real.tree)[hashDomain E e.1]? = none := by
        rw [realRecords, getElem?_foldl_insert_of_not_mem (hNames e.1 e.2 hGet)]
        simp
      have hSame : IndexOverlay.mergeEntry E (realRecords o.real.tree) e =
          realRecords o.real.tree := by
        simp only [IndexOverlay.mergeEntry, hNoAdd e.1 e.2 hGet, hNone]
      rw [List.foldl_cons, hSame]
      exact ih fun e he => hEntries e (List.mem_cons_of_mem _ he)
  exact hFold _ fun e he => ExtTreeMap.mem_toList_iff_getElem?_eq_some.mp he

/-- Every record stands under its own name and is plain. -/
def PlainMap (m : ExtTreeMap Bytes DomainRecord compare) : Prop :=
  ∀ (k : Bytes) (r : DomainRecord), m[k]? = some r → r.domain = k ∧ r.Plain

theorem PlainMap.insert {m : ExtTreeMap Bytes DomainRecord compare} (h : PlainMap m)
    {k : Bytes} {r : DomainRecord} (hName : r.domain = k) (hPlain : r.Plain) :
    PlainMap (m.insert k r) := by
  intro k' r' hGet
  rw [getElem?_insert_eq_ite] at hGet
  split at hGet
  · rename_i hk
    obtain rfl := Option.some.inj hGet
    exact ⟨hName.trans hk, hPlain⟩
  · exact h k' r' hGet

theorem plainMap_realRecords {t : AVLTree} (h : ∀ r ∈ getAllRecords t, r.Plain) :
    PlainMap (realRecords t) := by
  have hFold : ∀ (rs : List DomainRecord) (m : ExtTreeMap Bytes DomainRecord compare),
      (∀ r ∈ rs, r.Plain) → PlainMap m →
        PlainMap (rs.foldl (fun m r => m.insert r.domain r) m) := by
    intro rs
    induction rs with
    | nil => exact fun m _ hm => hm
    | cons r rs ih =>
      intro m hrs hm
      exact ih _ (fun r hr => hrs r (List.mem_cons_of_mem _ hr))
        (hm.insert rfl (hrs r List.mem_cons_self))
  exact hFold _ ∅ h fun k r hGet => by simp at hGet

/-- One journal entry keeps the records plain and every name; an addition brings its hashed
name. -/
theorem mergeEntry_spec {E : External} {m : ExtTreeMap Bytes DomainRecord compare}
    (hm : PlainMap m) {e : Bytes × OverlayEntry}
    (hTx : ∀ tx, e.2.addedTx = some tx → ∀ rec ∈ tx.records,
      (10 : UInt8) ∉ rec.type ∧ (10 : UInt8) ∉ rec.value) :
    PlainMap (IndexOverlay.mergeEntry E m e) ∧
      (∀ k : Bytes, m[k]?.isSome → (IndexOverlay.mergeEntry E m e)[k]?.isSome) ∧
      (e.2.addedTx.isSome → (IndexOverlay.mergeEntry E m e)[hashDomain E e.1]?.isSome) := by
  have hMono : ∀ (r : DomainRecord) (k : Bytes), m[k]?.isSome →
      (m.insert (hashDomain E e.1) r)[k]?.isSome := by
    intro r k hk
    rw [getElem?_insert_eq_ite]
    split
    · rfl
    · exact hk
  unfold IndexOverlay.mergeEntry
  dsimp only
  cases hAdded : e.2.addedTx with
  | some tx =>
    refine ⟨hm.insert rfl ⟨?_, hTx tx hAdded⟩, hMono _, fun _ => by simp⟩
    have hHex := hexEncode_alnum (E.sha256 e.1)
    exact ⟨hHex.not_mem (by decide), hHex.not_mem (by decide)⟩
  | none =>
    cases hGet : m[hashDomain E e.1]? with
    | none => exact ⟨hm, fun k hk => hk, fun h => by simp at h⟩
    | some existing =>
      obtain ⟨hName, hPlain⟩ := hm _ _ hGet
      exact ⟨hm.insert hName ⟨hPlain.name, hPlain.fields⟩, hMono _, fun h => by simp at h⟩

theorem foldl_mergeEntry_spec {E : External} {entries : List (Bytes × OverlayEntry)}
    {m : ExtTreeMap Bytes DomainRecord compare} (hm : PlainMap m)
    (hTx : ∀ e ∈ entries, ∀ tx, e.2.addedTx = some tx → ∀ rec ∈ tx.records,
      (10 : UInt8) ∉ rec.type ∧ (10 : UInt8) ∉ rec.value) :
    PlainMap (entries.foldl (IndexOverlay.mergeEntry E) m) ∧
      (∀ k : Bytes, m[k]?.isSome → (entries.foldl (IndexOverlay.mergeEntry E) m)[k]?.isSome) ∧
      (∀ e ∈ entries, e.2.addedTx.isSome →
        (entries.foldl (IndexOverlay.mergeEntry E) m)[hashDomain E e.1]?.isSome) := by
  induction entries generalizing m with
  | nil => exact ⟨hm, fun k hk => hk, by simp⟩
  | cons e entries ih =>
    obtain ⟨hStep, hMono, hNew⟩ := mergeEntry_spec (E := E) hm (hTx e List.mem_cons_self)
    obtain ⟨hPlain, hKeep, hAll⟩ := ih hStep fun e he => hTx e (List.mem_cons_of_mem _ he)
    refine ⟨hPlain, fun k hk => hKeep k (hMono k hk), fun e' he' hAdded => ?_⟩
    rcases List.mem_cons.mp he' with rfl | he'
    · exact hKeep _ (hNew hAdded)
    · exact hAll e' he' hAdded

/-! ## The records of the committed index -/

section Committed

variable {E : External} {slotsPerDay : Int64}

theorem entries_metadata (im : IndexManager) (d : Bytes) (f : DomainMetadata → DomainMetadata) :
    (im.setMetadata E d f).tree.root.entries = im.tree.root.entries :=
  im.tree.root.entries_setMetadata _ f

/-- The writes to owner and price after an addition keep keys and transactions. -/
theorem entries_commitEntry (target : IndexManager) (e : Bytes × OverlayEntry) :
    (IndexOverlay.commitEntry E slotsPerDay target e).tree.root.entries =
      (IndexOverlay.addEntry E slotsPerDay target e).tree.root.entries := by
  unfold IndexOverlay.commitEntry
  dsimp only
  cases e.2.ownerSet <;> cases e.2.listPriceSet <;>
    simp [IndexManager.setOwner, IndexManager.setListPrice, entries_metadata]

theorem entries_foldl_of_no_add {entries : List (Bytes × OverlayEntry)}
    (hNoAdd : ∀ e ∈ entries, e.2.addedTx = none) (target : IndexManager) :
    (entries.foldl (IndexOverlay.commitEntry E slotsPerDay) target).tree.root.entries =
      target.tree.root.entries := by
  induction entries generalizing target with
  | nil => rfl
  | cons e entries ih =>
    rw [List.foldl_cons, ih fun e he => hNoAdd e (List.mem_cons_of_mem _ he), entries_commitEntry,
      IndexOverlay.addEntry, hNoAdd e List.mem_cons_self]

theorem mem_entries {t : AVLTree} {p : Bytes × Transaction} :
    p ∈ t.root.entries ↔ ∃ e ∈ t.root.inOrder, (e.1, e.2.1) = p := List.mem_map

/-- Committing brings no transaction that the journal did not add. -/
theorem mem_foldl_commitEntry {entries : List (Bytes × OverlayEntry)} {target : IndexManager}
    {p : Bytes × Transaction}
    (hp : p ∈ (entries.foldl (IndexOverlay.commitEntry E slotsPerDay) target).tree.root.entries) :
    (∃ q ∈ target.tree.root.entries, q.2 = p.2) ∨ ∃ e ∈ entries, e.2.addedTx = some p.2 := by
  induction entries generalizing target with
  | nil => exact Or.inl ⟨p, hp, rfl⟩
  | cons e entries ih =>
    rw [List.foldl_cons] at hp
    rcases ih hp with ⟨q, hq, hEq⟩ | ⟨e', he', hEq⟩
    · rw [entries_commitEntry, IndexOverlay.addEntry] at hq
      cases hAdded : e.2.addedTx with
      | none =>
        rw [hAdded] at hq
        exact Or.inl ⟨q, hq, hEq⟩
      | some tx =>
        rw [hAdded] at hq
        obtain ⟨node, hNode, rfl⟩ := mem_entries.mp hq
        rcases target.tree.mem_add hNode with hOld | hNew
        · exact Or.inl ⟨_, mem_entries.mpr ⟨node, hOld, rfl⟩, hEq⟩
        · exact Or.inr ⟨e, List.mem_cons_self, by rw [hAdded, ← hEq, ← hNew]⟩
    · exact Or.inr ⟨e', List.mem_cons_of_mem _ he', hEq⟩

theorem mem_getAllRecords {t : AVLTree} {r : DomainRecord} (hr : r ∈ getAllRecords t) :
    ∃ p ∈ t.root.entries, p.2.domainName = r.domain ∧ p.2.records = r.records := by
  obtain ⟨e, he, rfl⟩ := List.mem_map.mp hr
  exact ⟨_, mem_entries.mpr ⟨e, he, rfl⟩, rfl, rfl⟩

theorem exists_record_of_mem_entries {t : AVLTree} {p : Bytes × Transaction}
    (hp : p ∈ t.root.entries) :
    ∃ r ∈ getAllRecords t, r.domain = p.2.domainName ∧ r.records = p.2.records := by
  obtain ⟨e, he, rfl⟩ := mem_entries.mp hp
  exact ⟨_, List.mem_map.mpr ⟨e, he, rfl⟩, rfl, rfl⟩

end Committed

/-- The real index and the operations of a run hold plain records, and no domain is named like
the hash of a domain that the run touches. -/
structure Plainly (E : External) (real : IndexManager) (ops : List OverlayOp) : Prop where
  indexed : WellIndexed E real.tree
  records : ∀ r ∈ getAllRecords real.tree, r.Plain
  sound : ∀ op ∈ ops, op.Sound
  namesReal : ∀ op ∈ ops, ∀ d, op.domain? = some d →
    hashDomain E d ∉ (getAllRecords real.tree).map DomainRecord.domain
  namesAdded : ∀ op ∈ ops, ∀ d, op.domain? = some d → ∀ op' ∈ ops, op'.isAdd →
    op'.domain? ≠ some (hashDomain E d)

section IndexHash

variable {E : External} {real : IndexManager} {ops : List OverlayOp} {o : IndexOverlay}
  {range : List (Bytes × OverlayEntry) → List (Bytes × OverlayEntry)}

/-- With an addition in the journal the two texts differ: the overlay writes a hashed name that
no committed domain has. -/
theorem indexText_ne_of_add (hPlain : Plainly E real ops) (hJournal : Journaled E real ops o)
    (hRange : ∀ xs, (range xs).Perm xs) (hAdd : ∃ op ∈ ops, op.isAdd) :
    indexText ((o.merged E).toList.map Prod.snd) ≠
      indexText (getAllRecords (o.commit E range real).tree) := by
  obtain ⟨d, entry, hGet, hSome⟩ := hJournal.kept hAdd
  obtain ⟨opTouch, hTouch, hTouchDomain⟩ := hJournal.named d entry hGet
  have hJournalMem : ∀ e, e ∈ o.journal.toList ↔ o.journal[e.1]? = some e.2 :=
    fun e => ExtTreeMap.mem_toList_iff_getElem?_eq_some
  -- a transaction that the journal added is that of an operation
  have hOp : ∀ e ∈ o.journal.toList, ∀ tx, e.2.addedTx = some tx →
      ∃ op ∈ ops, op.isAdd ∧ op.domain? = some tx.domainName ∧
        ((58 : UInt8) ∉ tx.domainName ∧ (10 : UInt8) ∉ tx.domainName) ∧
        ∀ rec ∈ tx.records, (10 : UInt8) ∉ rec.type ∧ (10 : UInt8) ∉ rec.value := by
    intro e he tx hTx
    obtain ⟨b, i, s, hMem⟩ := hJournal.added e.1 e.2 tx ((hJournalMem e).mp he) hTx
    obtain ⟨hName, hChars, hFields⟩ := hPlain.sound _ hMem
    exact ⟨_, hMem, rfl, by rw [hName]; rfl, by rwa [hName], hFields⟩
  have hTexts : ∀ e ∈ o.journal.toList, ∀ tx, e.2.addedTx = some tx → ∀ rec ∈ tx.records,
      (10 : UInt8) ∉ rec.type ∧ (10 : UInt8) ∉ rec.value := by
    intro e he tx hTx
    obtain ⟨_, _, _, _, _, hFields⟩ := hOp e he tx hTx
    exact hFields
  obtain ⟨hMerged, -, hHashed⟩ := foldl_mergeEntry_spec (E := E)
    (plainMap_realRecords hPlain.records) hTexts
  have hMergedEq : o.merged E =
      o.journal.toList.foldl (IndexOverlay.mergeEntry E) (realRecords real.tree) := by
    rw [IndexOverlay.merged, hJournal.real_eq]
    rfl
  obtain ⟨r, hr⟩ := Option.isSome_iff_exists.mp
    (hHashed (d, entry) ((hJournalMem _).mpr hGet) hSome)
  rw [← hMergedEq] at hr hMerged
  intro hText
  -- the committed index has a record under the hashed name
  have hName : hashDomain E d ∈
      (getAllRecords (o.commit E range real).tree).map DomainRecord.domain := by
    refine names_perm_of_indexText_eq ?_ ?_ hText _ ?_
    · intro r' hr'
      obtain ⟨⟨k, r''⟩, hMem, rfl⟩ := List.mem_map.mp hr'
      exact (hMerged k r'' (ExtTreeMap.mem_toList_iff_getElem?_eq_some.mp hMem)).2
    · intro r' hr'
      obtain ⟨p, hp, hpName, hpRecords⟩ := mem_getAllRecords hr'
      rcases mem_foldl_commitEntry hp with ⟨q, hq, hEq⟩ | ⟨e, he, hTx⟩
      · obtain ⟨old, hOld, hOldName, hOldRecords⟩ := exists_record_of_mem_entries hq
        have hOldPlain := hPlain.records old hOld
        constructor
        · rw [← hpName, ← hEq, ← hOldName]
          exact hOldPlain.name
        · rw [← hpRecords, ← hEq, ← hOldRecords]
          exact hOldPlain.fields
      · obtain ⟨_, _, _, _, hChars, hFields⟩ := hOp e ((hRange _).mem_iff.mp he) _ hTx
        exact ⟨hpName ▸ hChars, hpRecords ▸ hFields⟩
    · exact List.mem_map.mpr ⟨r, List.mem_map.mpr ⟨(hashDomain E d, r),
        ExtTreeMap.mem_toList_iff_getElem?_eq_some.mpr hr, rfl⟩, (hMerged _ _ hr).1⟩
  obtain ⟨r', hr', hr'Name⟩ := List.mem_map.mp hName
  obtain ⟨p, hp, hpName, -⟩ := mem_getAllRecords hr'
  rcases mem_foldl_commitEntry hp with ⟨q, hq, hEq⟩ | ⟨e, he, hTx⟩
  · obtain ⟨old, hOld, hOldName, -⟩ := exists_record_of_mem_entries hq
    refine hPlain.namesReal opTouch hTouch d hTouchDomain (List.mem_map.mpr ⟨old, hOld, ?_⟩)
    rw [hOldName, hEq, hpName, hr'Name]
  · obtain ⟨op', hMem, hIsAdd, hDomain, -⟩ := hOp e ((hRange _).mem_iff.mp he) _ hTx
    refine hPlain.namesAdded opTouch hTouch d hTouchDomain op' hMem hIsAdd ?_
    rw [hDomain, hpName, hr'Name]

/-- Without an addition the committed index has the nodes of the real one. -/
theorem search_eq_none_of_entries_eq {t t' : AVLTree} (hEntries : t'.root.entries = t.root.entries)
    {key : Bytes} (h : t.search key = none) : t'.search key = none := by
  cases hSearch : t'.search key with
  | none => rfl
  | some node =>
    have hMem : (key, node.1) ∈ t.root.entries :=
      hEntries ▸ mem_entries.mpr ⟨_, t'.mem_of_search hSearch, rfl⟩
    obtain ⟨e, he, hEq⟩ := mem_entries.mp hMem
    have hFound := t.search_of_mem he
    rw [(Prod.mk.inj hEq).1, h] at hFound
    exact absurd hFound (by simp)

/-- Without an addition the texts agree exactly when the commit leaves every price and owner. -/
theorem indexText_eq_iff_of_no_add (hPlain : Plainly E real ops)
    (hJournal : Journaled E real ops o) (hRange : ∀ xs, (range xs).Perm xs)
    (hNoAdd : ∀ op ∈ ops, op.isAdd = false) :
    indexText ((o.merged E).toList.map Prod.snd) =
        indexText (getAllRecords (o.commit E range real).tree) ↔
      ∀ d, (o.commit E range real).getListPrice E d = real.getListPrice E d ∧
        ((o.commit E range real).getOwner E d).getD [] = (real.getOwner E d).getD [] := by
  have hNone : ∀ (d : Bytes) (entry : OverlayEntry), o.journal[d]? = some entry →
      entry.addedTx = none := by
    intro d entry hGet
    cases hAdded : entry.addedTx with
    | none => rfl
    | some tx =>
      obtain ⟨b, i, s, hMem⟩ := hJournal.added d entry tx hGet hAdded
      exact absurd (hNoAdd _ hMem) (by simp [OverlayOp.isAdd])
  have hMerged : o.merged E = realRecords real.tree := by
    rw [merged_of_no_add hNone, hJournal.real_eq]
    intro d entry hGet
    obtain ⟨op, hMem, hDomain⟩ := hJournal.named d entry hGet
    rw [hJournal.real_eq]
    exact hPlain.namesReal op hMem d hDomain
  have hEntries : (o.commit E range real).tree.root.entries = real.tree.root.entries :=
    entries_foldl_of_no_add (fun e he => hNone e.1 e.2 (ExtTreeMap.mem_toList_iff_getElem?_eq_some.mp
      ((hRange _).mem_iff.mp he))) real
  have hUpdate := getAllRecords_of_entries_eq hPlain.indexed hEntries
  rw [hMerged, ← indexText_eq_of_perm (realRecords_perm hPlain.indexed).symm
    hPlain.indexed.names_nodup, hUpdate]
  let le : DomainRecord → DomainRecord → Prop := fun a b => (compare a.domain b.domain).isLE
  let upd := updateFrom E (o.commit E range real).tree
  have hName : ∀ r, (upd r).domain = r.domain := fun _ => rfl
  have hFixed : ∀ r, (upd r).fixedPart = r.fixedPart := fun _ => rfl
  have hSort : ((getAllRecords real.tree).map upd).insertionSort le =
      ((getAllRecords real.tree).insertionSort le).map upd := by
    refine (List.map_insertionSort le le upd _ fun a _ b _ => ?_).symm
    simp only [le, hName]
  have hMem : ∀ r, r ∈ (getAllRecords real.tree).insertionSort le ↔ r ∈ getAllRecords real.tree :=
    fun r => (List.perm_insertionSort le _).mem_iff
  unfold indexText
  rw [hSort]
  -- the metadata on both sides of a record
  have hMeta : ∀ e ∈ real.tree.root.inOrder, real.metadata E e.2.1.domainName = e.2.2 := by
    intro e he
    rw [IndexManager.metadata, ← hPlain.indexed e he, real.tree.search_of_mem he]
    rfl
  constructor
  · intro hText d
    have hLines := flatMap_line_update (fun r _ => hFixed r) hText
    rw [IndexManager.getListPrice_eq, IndexManager.getListPrice_eq, IndexManager.getOwner_eq,
      IndexManager.getOwner_eq]
    cases hSearch : real.tree.search (hashDomain E d) with
    | none =>
      have hSame : (o.commit E range real).metadata E d = real.metadata E d := by
        rw [IndexManager.metadata, IndexManager.metadata,
          search_eq_none_of_entries_eq hEntries hSearch, hSearch]
      rw [hSame]
      exact ⟨rfl, rfl⟩
    | some node =>
      have he := real.tree.mem_of_search hSearch
      have hKey : hashDomain E d = hashDomain E node.1.domainName := hPlain.indexed _ he
      obtain ⟨hPrice, hOwner⟩ := hLines _ ((hMem _).mpr (List.mem_map.mpr ⟨_, he, rfl⟩))
      have hReal : real.metadata E d = node.2 := by
        rw [IndexManager.metadata, hSearch]
        rfl
      have hCommitted : (o.commit E range real).metadata E d =
          (o.commit E range real).metadata E node.1.domainName := by
        rw [IndexManager.metadata, IndexManager.metadata, hKey]
      rw [hReal, hCommitted]
      exact ⟨hPrice.symm, hOwner.symm⟩
  · intro hSame
    rw [List.flatMap_map]
    refine List.flatMap_congr fun r hr => ?_
    obtain ⟨e, he, rfl⟩ := List.mem_map.mp ((hMem r).mp hr)
    obtain ⟨hPrice, hOwner⟩ := hSame e.2.1.domainName
    rw [IndexManager.getListPrice_eq, IndexManager.getListPrice_eq, hMeta e he] at hPrice
    rw [IndexManager.getOwner_eq, IndexManager.getOwner_eq, hMeta e he] at hOwner
    simp only [DomainRecord.line]
    rw [← hPrice, ← hOwner]
    rfl

end IndexHash

/-! ### One domain -/

def sampleTx : Transaction :=
  { tid := 1, type := .reveal, domainName := utf8 "a.bdns", expirySlot := 500
    records := [⟨utf8 "A", utf8 "10.0.0.1", 0⟩] }

/-- An index with one registered domain. -/
def sampleIndex : IndexManager :=
  (({} : IndexManager).add (.standIn fun _ => none) (utf8 "a.bdns") sampleTx 1 0 10).setOwner
    (.standIn fun _ => none) (utf8 "a.bdns") (some [7])

/-- Rewriting what is there keeps the hash. -/
def sampleOps : List OverlayOp :=
  [.setOwner (utf8 "a.bdns") (some [7]), .setListPrice (utf8 "a.bdns") 0, .markAsSpent 1]

end Bdns.Index
