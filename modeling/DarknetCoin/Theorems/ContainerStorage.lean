import DarknetCoin.Model.TransfersStorage
import DarknetCoin.Theorems.TransferOrder

/-!
# A container is read back

What `save` writes, `load` reads, if both take the transactions to be stored in one way. That is
left to the initial values of `m_wallet_version` in the two serialisers, and without the number in
the store the transactions come back with what happens to be in the variable for it.
-/

namespace DarknetCoin

open Data Semantics

/-- The fields have the widths of their types, and nothing is too long to be read. -/
def TransactionInformation.Storable (info : TransactionInformation) : Prop :=
  (codec walletVersionBM 0).Fits info

/-- The transaction as it is read: without the number where it is not stored. -/
def TransactionInformation.asRead (walletVersion unreadId : Nat) (info : TransactionInformation) :
    TransactionInformation :=
  if walletVersion = walletVersionBM then info else { info with id := unreadId }

theorem TransactionInformation.Storable.fits_asRead {info : TransactionInformation}
    (h : info.Storable) (walletVersion unreadId : Nat) :
    (codec walletVersion unreadId).Fits (info.asRead walletVersion unreadId) := by
  obtain ⟨h₁, h₂, h₃, h₄, h₅, h₆, h₇, h₈, h₉, h₁₀, h₁₁, -⟩ := h
  by_cases hver : walletVersion = walletVersionBM
  · subst hver
    exact ⟨h₁, h₂, h₃, h₄, h₅, h₆, h₇, h₈, h₉, h₁₀, h₁₁, rfl⟩
  · rw [asRead, if_neg hver]
    refine ⟨h₁, h₂, h₃, h₄, h₅, h₆, h₇, h₈, h₉, h₁₀, ?_, rfl⟩
    rw [if_neg hver]
    exact rfl

/-- The same for a container. The store has messages only if the wallet has the version for them. -/
structure SavedContainer.Storable (walletVersion : Nat) (unwritten : KeyImage)
    (saved : SavedContainer) : Prop where
  currentHeight : saved.currentHeight < word32
  transactions : saved.transactions.length ≤ maxArraySize ∧ ∀ info ∈ saved.transactions,
    info.Storable
  transactionsBM : if walletVersion = walletVersionBM then
      saved.transactionsBM.length ≤ maxArraySize ∧ ∀ info ∈ saved.transactionsBM, info.Storable
    else saved.transactionsBM = []
  unconfirmedTransfers : saved.unconfirmedTransfers.length ≤ maxArraySize ∧
    ∀ t ∈ saved.unconfirmedTransfers, (TransactionOutputInformationEx.codec unwritten).Fits t
  availableTransfers : saved.availableTransfers.length ≤ maxArraySize ∧
    ∀ t ∈ saved.availableTransfers, (TransactionOutputInformationEx.codec unwritten).Fits t
  spentTransfers : saved.spentTransfers.length ≤ maxArraySize ∧
    ∀ t ∈ saved.spentTransfers, (SpentTransactionOutput.codec unwritten).Fits t
  transfersUnlockJobs : saved.transfersUnlockJobs.length ≤ maxArraySize ∧
    ∀ job ∈ saved.transfersUnlockJobs, TransferUnlockJob.codec.Fits job

theorem fits_sequenceCodec {α : Type} {codec : Layout UInt8 α} {elements : List α}
    (h : elements.length ≤ maxArraySize ∧ ∀ a ∈ elements, codec.Fits a) :
    (sequenceCodec codec).Fits elements :=
  ⟨⟨h.1.trans_lt (by decide : maxArraySize < 2 ^ 64), h.1⟩, h.2⟩

namespace SavedContainer

variable {saved : SavedContainer} {leftovers : Leftovers} {initialVersion walletVersion : Nat}

/-- The same for the transactions of a container. -/
def asRead (leftovers : Leftovers) (initialVersion : Nat) (saved : SavedContainer) :
    SavedContainer :=
  { saved with transactions := saved.transactions.map (·.asRead initialVersion leftovers.id) }

theorem write_asRead : (codec leftovers initialVersion walletVersion).write
    (saved.asRead leftovers initialVersion) =
    (codec leftovers initialVersion walletVersion).write saved := by
  have hinfo (info : TransactionInformation) :
      (TransactionInformation.codec initialVersion leftovers.id).write
      (info.asRead initialVersion leftovers.id) =
        (TransactionInformation.codec initialVersion leftovers.id).write info := by
    unfold TransactionInformation.asRead
    split
    · rfl
    · next hver => simp [TransactionInformation.codec, hver]
  simp [codec, asRead, sequenceCodec, Layout.array, List.flatMap_map, hinfo]

/-- A store of the older version has no unlock jobs. -/
def Versioned (saved : SavedContainer) : Prop :=
  saved.version = transfersContainerStorageVersion ∨ saved.version = 0 ∧
    saved.transfersUnlockJobs = []

theorem Storable.fits_asRead (h : saved.Storable walletVersion leftovers.keyImage)
    (hver : saved.Versioned) : (codec leftovers initialVersion walletVersion).Fits
    (saved.asRead leftovers initialVersion) := by
  refine ⟨?_, h.currentHeight,
    fits_sequenceCodec ⟨h.transactions.1.trans' (List.length_map _).le, ?_⟩, ?_,
    fits_sequenceCodec h.unconfirmedTransfers, fits_sequenceCodec h.availableTransfers,
    fits_sequenceCodec h.spentTransfers, ?_, rfl⟩
  · have hle : saved.version ≤ 1 := hver.elim (fun h => h.le) fun h => h.1.trans_le (Nat.zero_le 1)
    exact ⟨hle.trans_lt (by decide : 1 < 2 ^ 32), hle⟩
  · intro info hinfo
    obtain ⟨stored, hstored, rfl⟩ := List.mem_map.mp hinfo
    have hinfoStorable : stored.Storable := h.transactions.2 stored hstored
    exact hinfoStorable.fits_asRead initialVersion leftovers.id
  · have hmsgs := h.transactionsBM
    split
    · next hver =>
      rw [if_pos hver] at hmsgs
      refine fits_sequenceCodec ⟨hmsgs.1, fun info hinfo => ?_⟩
      have hinfoStorable : info.Storable := hmsgs.2 info hinfo
      have hfits := hinfoStorable.fits_asRead walletVersion leftovers.id
      rwa [TransactionInformation.asRead, if_pos hver] at hfits
    · next hver => rwa [if_neg hver] at hmsgs
  · split
    · exact fits_sequenceCodec h.transfersUnlockJobs
    · next hold =>
      rcases hver with hnew | ⟨-, hnone⟩
      · exact absurd (ne_of_eq_of_ne hnew Nat.one_ne_zero) hold
      · exact hnone

end SavedContainer

namespace TransfersContainer

variable {leftovers : Leftovers} {initialVersion initialVersion' walletVersion age : Nat}
  {order : SavedOrder} {c : TransfersContainer}

theorem load_write {saved : SavedContainer} (h : saved.Storable walletVersion leftovers.keyImage)
    (hver : saved.Versioned) (target : TransfersContainer) :
    load leftovers initialVersion walletVersion age
      ((SavedContainer.codec leftovers initialVersion walletVersion).write saved) target =
      .done () (ofSaved age (saved.asRead leftovers initialVersion)) := by
  have hread := (SavedContainer.codec leftovers initialVersion walletVersion).read_write _
    (h.fits_asRead hver) []
  rw [List.append_nil, SavedContainer.write_asRead] at hread
  unfold load
  rw [hread]

/-- Only whether the version is that of messages matters. -/
theorem codec_congr (h : initialVersion = walletVersionBM ↔ initialVersion' = walletVersionBM) :
    SavedContainer.codec leftovers initialVersion walletVersion =
      SavedContainer.codec leftovers initialVersion' walletVersion := by
  have hinfo : TransactionInformation.codec initialVersion leftovers.id =
      TransactionInformation.codec initialVersion' leftovers.id := by
    unfold TransactionInformation.codec
    simp only [h]
  unfold SavedContainer.codec
  rw [hinfo]

theorem load_save (h : (c.saved order).Storable walletVersion leftovers.keyImage)
    (hinitial : initialVersion = walletVersionBM ↔ initialVersion' = walletVersionBM)
    (hid : initialVersion ≠ walletVersionBM → ∀ info ∈ order.transactions, info.id = leftovers.id)
    (target : TransfersContainer) :
    load leftovers initialVersion' walletVersion age
    (c.save leftovers initialVersion walletVersion order) target = .done () (c.reload order) := by
  have hasRead : (c.saved order).asRead leftovers initialVersion = c.saved order := by
    have hmap : order.transactions.map (·.asRead initialVersion leftovers.id) =
        order.transactions.map id := by
      refine List.map_congr_left fun info hinfo => ?_
      unfold TransactionInformation.asRead
      split
      · rfl
      · next hver => rw [← hid hver info hinfo, id]
    rw [List.map_id] at hmap
    exact congrArg (fun transactions => { c.saved order with transactions }) hmap
  have hload := @load_write leftovers initialVersion walletVersion age _ h (.inl rfl) target
  rw [hasRead] at hload
  unfold load at hload ⊢
  rw [← codec_congr hinitial]
  exact hload

/-- The same records, the same jobs and the same height. -/
structure SameContents (c c' : TransfersContainer) : Prop where
  currentHeight : c'.currentHeight = c.currentHeight
  transactions : c'.transactions.toList.Perm c.transactions.toList
  unconfirmedTransfers : c'.unconfirmedTransfers.toList.Perm c.unconfirmedTransfers.toList
  availableTransfers : c'.availableTransfers.toList.Perm c.availableTransfers.toList
  spentTransfers : c'.spentTransfers.toList.Perm c.spentTransfers.toList
  transfersUnlockJobs : c'.transfersUnlockJobs.toList.Perm c.transfersUnlockJobs.toList

theorem sameContents_reload (horder : order.Of c) : SameContents c (c.reload order) := by
  obtain ⟨hunconf, havail, hspent⟩ := reload_perm horder
  refine ⟨rfl, ?_, hunconf, havail, hspent,
    OrderedIndex.toList_ofList_perm c.transfersUnlockJobs.nodup⟩
  have hnodup := (horder.1.map _).nodup_iff.mpr c.transactions.nodup
  exact (OrderedIndex.toList_ofList_perm hnodup).trans horder.1

theorem transactionsBM_reload (horder : order.Of c) {records : List TransactionInformation}
    (hsaved : order.transactionsBM = some records) :
    (c.reload order).transactionsBM.toList.Perm c.transactionsBM.toList := by
  have hperm := horder.2.1 records hsaved
  have hnodup := (hperm.map _).nodup_iff.mpr c.transactionsBM.nodup
  unfold reload
  rw [hsaved]
  exact (OrderedIndex.toList_ofList_perm hnodup).trans hperm

/-- Without transactions the first value of `m_wallet_version` does not matter. -/
theorem write_codec_of_nil {saved : SavedContainer} (h : saved.transactions = []) :
    (SavedContainer.codec leftovers initialVersion walletVersion).write saved =
      (SavedContainer.codec leftovers initialVersion' walletVersion).write saved := by
  simp [SavedContainer.codec, sequenceCodec, Layout.array, h]

/-- What `save` writes is read back into another container, with values of `m_wallet_version` before
it is set that may differ. -/
def RoundTrips (leftovers : Leftovers) (initialVersion initialVersion' walletVersion age : Nat)
    (order : SavedOrder) (c target : TransfersContainer) : Prop :=
  ∃ loaded, load leftovers initialVersion' walletVersion age
      (c.save leftovers initialVersion walletVersion order) target = .done () loaded ∧
    SameContents c loaded ∧
    (walletVersion = walletVersionBM → loaded.transactionsBM.toList.Perm c.transactionsBM.toList)

theorem roundTrips_of_load {target : TransfersContainer} (horder : order.Of c)
    (hmessages : order.transactionsBM.isSome ↔ walletVersion = walletVersionBM)
    (h : load leftovers initialVersion' walletVersion age
      (c.save leftovers initialVersion walletVersion order) target = .done () (c.reload order)) :
    c.RoundTrips leftovers initialVersion initialVersion' walletVersion age order target := by
  refine ⟨_, h, sameContents_reload horder, fun hver => ?_⟩
  obtain ⟨records, hsaved⟩ := Option.isSome_iff_exists.mp (hmessages.mpr hver)
  exact transactionsBM_reload horder hsaved

end TransfersContainer

open TransfersContainer

/-- A container is read back into any other one, if it has no transactions, or if both serialisers
take them to be stored in one way and, where that is without the numbers, no number is lost. If the
serialisers agree, this is exact; and only a container without transactions is read back whatever
they hold. -/
theorem container_round_trip {keyImage : KeyImage} {walletVersion age : Nat}
    {order : TransfersContainer.SavedOrder} {c : TransfersContainer} (horder : order.Of c)
    (hmessages : order.transactionsBM.isSome ↔ walletVersion = walletVersionBM)
    (hfits : (c.saved order).Storable walletVersion keyImage) (target : TransfersContainer) :
    (∀ initialVersion initialVersion' unreadId,
      (initialVersion = walletVersionBM ↔ initialVersion' = walletVersionBM) →
      (c.RoundTrips ⟨unreadId, keyImage⟩ initialVersion initialVersion' walletVersion age
        order target ↔
        (initialVersion ≠ walletVersionBM → ∀ info ∈ c.transactions.toList, info.id = unreadId))) ∧
    ((∀ initialVersion initialVersion' unreadId,
        c.RoundTrips ⟨unreadId, keyImage⟩ initialVersion initialVersion' walletVersion age
        order target) ↔ c.transactions.toList = []) := by
  have hexact : ∀ initialVersion initialVersion' unreadId,
      (initialVersion = walletVersionBM ↔ initialVersion' = walletVersionBM) →
      (c.RoundTrips ⟨unreadId, keyImage⟩ initialVersion initialVersion' walletVersion age
        order target ↔ (initialVersion ≠ walletVersionBM → ∀ info ∈ c.transactions.toList,
            info.id = unreadId)) := by
    intro initialVersion initialVersion' unreadId hinitial
    constructor
    · rintro ⟨loaded, hload, hsame, -⟩ hver info hinfo
      have hwritten := @load_write ⟨unreadId, keyImage⟩ initialVersion walletVersion age _ hfits
        (.inl rfl) target
      rw [load, codec_congr hinitial, ← load, ← codec_congr hinitial] at hwritten
      obtain rfl := (Outcome.done.inj (hwritten.symm.trans hload)).2
      obtain ⟨stored, -, rfl⟩ := List.mem_map.mp
        (OrderedIndex.mem_of_mem_ofList (hsame.transactions.mem_iff.mpr hinfo))
      rw [TransactionInformation.asRead, if_neg hver]
    · intro hid
      exact roundTrips_of_load horder hmessages
        (load_save hfits hinitial
          (fun h info hinfo => hid h info (horder.1.mem_iff.mp hinfo)) target)
  refine ⟨hexact, fun hall => ?_, fun hnone initialVersion initialVersion' unreadId => ?_⟩
  · -- a number that differs from what is left in the variable is lost
    refine List.eq_nil_iff_forall_not_mem.mpr fun info hinfo => ?_
    have hlost := (hexact 0 0 (info.id + 1) .rfl).mp (hall 0 0 (info.id + 1)) (by decide) info hinfo
    omega
  · have htransactions : order.transactions = [] := (horder.1.trans (.of_eq hnone)).eq_nil
    refine roundTrips_of_load horder hmessages ?_
    rw [save, write_codec_of_nil htransactions]
    exact load_save hfits .rfl (fun _ info hinfo => by simp [htransactions] at hinfo) target

/-- An output of the transaction in `messageContainer`. -/
def messageTransfer : TransactionOutputInformationEx where
  amount := 6
  globalOutputIndex := 7
  outputInTransaction := 0
  transactionHash := 1
  transactionPublicKey := 2
  target := .key 8 9
  unlockTime := 0
  blockHeight := 3
  transactionIndex := 0
  visible := true

/-- A container with a transaction that was recorded for the address with a number, and its
output. -/
def messageContainer (id : Nat) : TransfersContainer :=
  { TransfersContainer.empty with
    transactions := .ofList [⟨1, 2, 3, 4, 0, 5, 6, [], 0, [], id⟩]
    availableTransfers := .ofList [messageTransfer]
    transfersUnlockJobs := .ofList [messageTransfer.unlockJob 6]
    currentHeight := 3 }

def messageOrder (id : Nat) : TransfersContainer.SavedOrder :=
  ⟨[⟨1, 2, 3, 4, 0, 5, 6, [], 0, [], id⟩], some [], [], [messageTransfer], []⟩

theorem of_messageOrder (id : Nat) : (messageOrder id).Of (messageContainer id) :=
  ⟨.refl _, fun _ h => (Option.some.inj h) ▸ .refl _, .refl _, .refl _, .refl _⟩

theorem fits_digestCodec (digest : BitVec 256) : digestCodec.Fits digest :=
  ⟨LittleEndian.length_encode 32 _, digestOfBytes_writeDigest digest⟩

theorem fits_messageTransfer (unwritten : KeyImage) :
    (TransactionOutputInformationEx.codec unwritten).Fits messageTransfer :=
  ⟨(by decide : 1 < 2 ^ 8), (by decide : 6 < 2 ^ 64), (by decide : 7 < word32),
    (by decide : 0 < 2 ^ 32),
    fits_digestCodec 2, fits_digestCodec 8, (by decide : 0 < 2 ^ 64), (by decide : 3 < word32),
    (by decide : 0 < 2 ^ 32), fits_digestCodec 1, ⟨rfl, rfl⟩, ⟨fits_digestCodec 9, rfl⟩, rfl⟩

theorem storable_message (id : Nat) (hid : id < 2 ^ 8) (unwritten : KeyImage) :
    ((messageContainer id).saved (messageOrder id)).Storable walletVersionBM unwritten := by
  have hempty {α : Type} (codec : Layout UInt8 α) : (sequenceCodec codec).Fits [] :=
    fits_sequenceCodec ⟨Nat.zero_le _, fun _ h => absurd h List.not_mem_nil⟩
  have hinfo : TransactionInformation.Storable ⟨1, 2, 3, 4, 0, 5, 6, [], 0, [], id⟩ :=
    ⟨fits_digestCodec 1, fits_digestCodec 2, (by decide : 3 < word32),
      (by decide : 4 < 2 ^ 64), (by decide : 0 < 2 ^ 64), (by decide : 5 < 2 ^ 64),
      (by decide : 6 < 2 ^ 64), hempty _, fits_digestCodec 0, hempty _, hid, rfl⟩
  have hjob : TransferUnlockJob.codec.Fits (messageTransfer.unlockJob 6) :=
    ⟨(by decide : 10 < 2 ^ 32), fits_digestCodec 1, (by decide : 0 < 2 ^ 32), rfl⟩
  have hnone {α : Type} {p : α → Prop} : ([] : List α).length ≤ maxArraySize ∧
      ∀ a ∈ ([] : List α), p a :=
    ⟨Nat.zero_le _, fun _ h => absurd h List.not_mem_nil⟩
  have hone {α : Type} {p : α → Prop} {a : α} (h : p a) : [a].length ≤ maxArraySize ∧
      ∀ b ∈ [a], p b :=
    ⟨(by decide : 1 ≤ maxArraySize), List.forall_mem_singleton.mpr h⟩
  exact ⟨(by decide : 3 < word32), hone hinfo, hnone, hnone,
    hone (fits_messageTransfer unwritten), hnone, hone hjob⟩

theorem container_round_trip_message :
    (messageContainer 5).availableTransfers.toList = [messageTransfer] ∧
      (messageContainer 5).RoundTrips ⟨0, 0⟩ 3 3 3 6 (messageOrder 5) .empty := by
  have hstorable := storable_message 5 (by decide) 0
  have hexact :=
    (@container_round_trip 0 3 6 _ _ (of_messageOrder 5) (iff_of_true rfl rfl) hstorable
    .empty).1 3 3 0 .rfl
  exact ⟨rfl, hexact.mpr fun h => absurd rfl h⟩

/-- With another initial value in the serialisers the number is lost. With different ones, the store
cannot be read. -/
theorem message_id_lost :
    (∃ loaded, load ⟨0, 0⟩ 0 3 6 ((messageContainer 5).save ⟨0, 0⟩ 0 3 (messageOrder 5)) .empty =
        .done () loaded ∧ loaded.transactions.toList.map (·.id) = [0] ∧
      (messageContainer 5).transactions.toList.map (·.id) = [5]) ∧
    load ⟨0, 0⟩ 0 3 6 ((messageContainer 5).save ⟨0, 0⟩ 3 3 (messageOrder 5)) .empty =
    .thrown .empty := by
  constructor
  · -- without numbers the store is that of a container with number 0
    have hsave : (messageContainer 5).save ⟨0, 0⟩ 0 3 (messageOrder 5) =
      (messageContainer 0).save ⟨0, 0⟩ 0 3 (messageOrder 0) := rfl
    have hload : load ⟨0, 0⟩ 0 3 6 ((messageContainer 0).save ⟨0, 0⟩ 0 3 (messageOrder 0)) .empty =
        .done () ((messageContainer 0).reload (messageOrder 0)) :=
      load_save (storable_message 0 (by decide) 0) .rfl
        (fun _ info hinfo => congrArg TransactionInformation.id (List.mem_singleton.mp hinfo))
          .empty
    rw [hsave]
    exact ⟨_, hload, rfl, rfl⟩
  · have hread : ((SavedContainer.codec ⟨0, 0⟩ 0 3).read
        ((messageContainer 5).save ⟨0, 0⟩ 3 3 (messageOrder 5))).isNone = true := by decide +kernel
    unfold load
    rw [Option.isNone_iff_eq_none.mp hread]

namespace TransfersContainer

variable {leftovers : Leftovers} {initialVersion walletVersion age : Nat} {order : SavedOrder}
  {c : TransfersContainer}

/-- What the older version stores. -/
def savedOld (order : SavedOrder) (c : TransfersContainer) : SavedContainer :=
  { c.saved order with version := 0, transfersUnlockJobs := [] }

/-- The container such a store is loaded to. -/
def reloadOld (leftovers : Leftovers) (initialVersion age : Nat) (order : SavedOrder)
    (c : TransfersContainer) : TransfersContainer :=
  ofSaved age ((c.savedOld order).asRead leftovers initialVersion)

/-- No output is spent, but for those that are available too. -/
def SpentAvailable (c : TransfersContainer) : Prop :=
  ∀ s ∈ c.spentTransfers.toList, ∃ t ∈ c.availableTransfers.toList,
    t.transactionOutputKey = s.transactionOutputKey

/-- The jobs that are made anew are those of the available outputs, if the output of every spent
transfer is an available one as well. -/
theorem jobsFit_reloadOld (leftovers : Leftovers) (initialVersion age : Nat) (horder : order.Of c) :
    (c.reloadOld leftovers initialVersion age order).JobsFit age ↔ c.SpentAvailable := by
  obtain ⟨-, havail, hspent⟩ := reload_perm horder
  let available : TransfersMultiIndex := .ofList order.availableTransfers
  let spent : SpentTransfersMultiIndex := .ofList order.spentTransfers
  change (rebuildTransfersUnlockJobs age available spent).toList.Perm
    (available.transfers.map (·.unlockJob age)) ↔ _
  have hjobs : available.transfers.map (·.unlockJob age) =
      available.toList.map fun t => t.unlockJob age := by
    rw [TransfersMultiIndex.transfers, List.map_map]
    rfl
  have hnodup : ((available.toList.map fun t => t.unlockJob age).map
      TransferUnlockJob.transactionOutputKey).Nodup := by
    rw [List.map_map, List.Nodup, List.pairwise_map]
    exact available.distinct
  let jobs : TransfersUnlockMultiIndex := .ofList (available.toList.map fun t => t.unlockJob age)
  have hfirst : jobs.toList.Perm (available.toList.map fun t => t.unlockJob age) :=
    OrderedIndex.toList_ofList_perm hnodup
  rw [hjobs, rebuildTransfersUnlockJobs, OrderedIndex.ofList, List.foldl_append]
  constructor
  · intro hperm s hs
    -- the job of a spent transfer has its key, and every job is that of an available one
    have hjob := OrderedIndex.mem_keys_foldl_emplace jobs
      (List.mem_map_of_mem (f := fun s : SpentTransactionOutput => s.unlockJob age)
        (hspent.mem_iff.mpr hs))
    obtain ⟨_, hmem, hkey⟩ := List.mem_map.mp ((hperm.map _).mem_iff.mp hjob)
    obtain ⟨t, ht, rfl⟩ := List.mem_map.mp hmem
    exact ⟨t, havail.mem_iff.mp ht, hkey⟩
  · intro hcovered
    rw [OrderedIndex.foldl_emplace_of_mem]
    · exact hfirst
    · intro job hjob
      obtain ⟨s, hs, rfl⟩ := List.mem_map.mp hjob
      obtain ⟨t, ht, hkey⟩ := hcovered s (hspent.mem_iff.mp hs)
      change _ ∈ jobs.toList.map _
      refine List.mem_map.mpr ⟨t.unlockJob age, hfirst.mem_iff.mpr ?_, hkey⟩
      exact List.mem_map_of_mem (havail.mem_iff.mpr ht)

/-- A store of the older version is loaded to the same container, and calls never miss the output of
a job, if and only if no output is spent, but for those that are available too. -/
theorem old_store_loads (hjobs : c.JobsFit age) (horder : order.Of c)
    (hfits : (c.saved order).Storable walletVersion leftovers.keyImage)
    (target : TransfersContainer) :
    (∃ old new, load leftovers initialVersion walletVersion age
        ((SavedContainer.codec leftovers initialVersion walletVersion).write (c.savedOld order))
          target = .done () old ∧
      load leftovers initialVersion walletVersion age
        (c.save leftovers initialVersion walletVersion order) target = .done () new ∧
      new = { old with transfersUnlockJobs := new.transfersUnlockJobs } ∧
      new.transfersUnlockJobs.toList.Perm old.transfersUnlockJobs.toList ∧
      ∀ later, Relation.ReflTransGen
          (fun c c' => ∃ call, c.Saves call ∧ (perform age call c).Leaves c') old later →
        ∀ job ∈ later.transfersUnlockJobs.toList,
          ∃ out, later.getAvailableOutput job.transactionOutputKey = .ok out) ↔
          c.SpentAvailable := by
  rw [← jobsFit_reloadOld leftovers initialVersion age horder]
  have hnew : (c.reload order).JobsFit age := (jobsFit_invariant age).reload horder hjobs
  have hstorable : (c.savedOld order).Storable walletVersion leftovers.keyImage :=
    { hfits with transfersUnlockJobs := ⟨Nat.zero_le _, fun _ h => absurd h List.not_mem_nil⟩ }
  have hloadOld := @load_write leftovers initialVersion walletVersion age _ hstorable
    (.inr ⟨rfl, rfl⟩) target
  have hloadNew := @load_write leftovers initialVersion walletVersion age _ hfits (.inl rfl) target
  constructor
  · rintro ⟨old, new, hold, hsaved, -, hsame, -⟩
    obtain rfl := (Outcome.done.inj (hloadOld.symm.trans hold)).2
    obtain rfl := (Outcome.done.inj (hloadNew.symm.trans hsaved)).2
    exact hsame.symm.trans hnew
  · intro hold
    refine ⟨_, _, hloadOld, hloadNew, rfl, hnew.trans hold.symm, fun later hlater => ?_⟩
    have hlater : later.JobsFit age := by
      induction hlater with
      | refl => exact hold
      | tail _ hstep ih =>
        obtain ⟨call, hsaves, hcall⟩ := hstep
        exact ((jobsFit_invariant age).keeps_perform hsaves ih).leaves hcall
    intro job hjob
    obtain ⟨t, ht, rfl⟩ := List.mem_map.mp (hlater.mem_iff.mp hjob)
    exact ⟨_, getAvailableOutput_of_mem ht⟩

theorem old_store_loads_message :
    (messageContainer 5).transfersUnlockJobs.toList = [⟨10, ⟨1, 0⟩⟩] ∧
    ∃ old new, load ⟨0, 0⟩ 3 3 6 ((SavedContainer.codec ⟨0, 0⟩ 3 3).write
        ((messageContainer 5).savedOld (messageOrder 5))) .empty = .done () old ∧
      load ⟨0, 0⟩ 3 3 6 ((messageContainer 5).save ⟨0, 0⟩ 3 3 (messageOrder 5)) .empty =
        .done () new ∧
      new.transfersUnlockJobs.toList.Perm old.transfersUnlockJobs.toList := by
  have hjobs : (messageContainer 5).JobsFit 6 := .refl _
  obtain ⟨old, new, hold, hnew, -, hsame, -⟩ := (@old_store_loads ⟨0, 0⟩ 3 3 6 _ _ hjobs
    (of_messageOrder 5) (storable_message 5 (by decide) 0) .empty).mpr (fun s hs => nomatch hs)
  exact ⟨rfl, old, new, hold, hnew, hsame⟩

/-- Whether only the old form of a container makes the next blocks fail. -/
def throwsOld (c : TransfersContainer) : Bool :=
  match load ⟨0, 0⟩ 3 3 6 ((SavedContainer.codec ⟨0, 0⟩ 3 3).write (c.savedOld c.reversedOrder))
    .empty, load ⟨0, 0⟩ 3 3 6 (c.save ⟨0, 0⟩ 3 3 c.reversedOrder) .empty with
  | .done _ old, .done _ new =>
    match advanceHeight 16 old, advanceHeight 16 new with
    | .thrown _, .done [] _ => true
    | _, _ => false
  | _, _ => false

/-- A job is made for an output that is spent, and the next blocks cannot be added. -/
theorem old_store_throws : ∃ c, Run 6 (fun _ _ => True) c ∧ ∃ old new left later,
    load ⟨0, 0⟩ 3 3 6 ((SavedContainer.codec ⟨0, 0⟩ 3 3).write (c.savedOld c.reversedOrder))
    .empty =
      .done () old ∧ load ⟨0, 0⟩ 3 3 6 (c.save ⟨0, 0⟩ 3 3 c.reversedOrder) .empty = .done () new ∧
    advanceHeight 16 old = .thrown left ∧ advanceHeight 16 new = .done [] later := by
  obtain ⟨c, hrun, htest⟩ := @exists_run_of_calls (fun _ _ => True) 6 sameBlockCalls
    (fun c => throwsOld c = true) _ (by simp [sameBlockCalls, Saves]) (by decide +kernel)
  unfold throwsOld at htest
  split at htest
  · next _ old _ new hold hnew =>
    split at htest
    · next hthrown hdone => exact ⟨c, hrun, old, new, _, _, hold, hnew, hthrown, hdone⟩
    · cases htest
  · cases htest

/-! ### Announcements after an old store was loaded -/

/-- The container is reached from a new one by calls that return or throw, and by loading stores of
the older version of containers that meet `Ok`. -/
inductive Restored (age : Nat) (Ok : TransfersContainer → Prop) : TransfersContainer → Prop
  | start : Restored age Ok empty
  | step {c c' : TransfersContainer} {call : TransfersCall} (hrun : Restored age Ok c)
      (hsaves : c.Saves call) (hcall : (perform age call c).Leaves c') : Restored age Ok c'
  | old {c : TransfersContainer} {order : SavedOrder} (leftovers : Leftovers) (initialVersion : Nat)
      (hrun : Restored age Ok c) (horder : order.Of c) (hok : Ok c) :
      Restored age Ok (c.reloadOld leftovers initialVersion age order)

theorem Restored.of_reached {Ok : TransfersContainer → Prop} (h : Reached age c) :
    Restored age Ok c := by
  induction h with
  | start => exact .start
  | step _ hsaves hcall ih => exact ih.step hsaves hcall

theorem jobsFit_of_restored (h : Restored age SpentAvailable c) : c.JobsFit age := by
  induction h with
  | start => exact (jobsFit_invariant age).empty
  | step _ hsaves hcall ih => exact ((jobsFit_invariant age).keeps_perform hsaves ih).leaves hcall
  | old leftovers initialVersion _ horder hok _ =>
    exact (jobsFit_reloadOld leftovers initialVersion age horder).mpr hok

/-- A higher height announces the available outputs that are unlocked at it and were not before,
once each, also when it is reached in several calls; a detach announces those then available that
were unlocked at the old height and are not at the new one. Stores of the older version were loaded
only where no output was spent. -/
theorem unlocked_of_restored {cur : Currency} {age : Nat} {c : TransfersContainer}
    (hdelta : cur.lockedTxAllowedDeltaBlocks = 1) (hage : 1 ≤ age)
    (hrun : Restored age SpentAvailable c) (hfits : ∀ t ∈ c.ledger.confirmed, t.Fits cur age)
    (hcurrent : c.currentHeight + 1 < word32) (now : Nat) :
    (∀ height, c.currentHeight ≤ height → height + 1 < word32 →
      ∃ unlocked, advanceHeight height c = .done unlocked { c with currentHeight := height } ∧
        unlocked.Perm (c.newlyUnlocked cur age now c.currentHeight height)) ∧
    (∀ heights : List Nat, (c.currentHeight :: heights).IsChain (· ≤ ·) →
      (∀ height ∈ heights, height + 1 < word32) →
      ∃ unlocked, advanceHeights heights c =
          .done unlocked { c with currentHeight := heights.getLastD c.currentHeight } ∧
        unlocked.Perm
          (c.newlyUnlocked cur age now c.currentHeight (heights.getLastD c.currentHeight))) ∧
    ∀ height, height < word32 →
      ∃ deleted locked c', detach age height c = .done (deleted, locked) c' ∧
        c'.currentHeight = height - 1 ∧
        locked.Perm (c'.newlyUnlocked cur age now (height - 1) c.currentHeight) := by
  have hjobs := jobsFit_of_restored hrun
  have havail : ∀ t ∈ c.ledger.available, t.Fits cur age := fun t ht =>
    hfits t (List.mem_append_left _ ht)
  refine ⟨fun height hle hheight => ?_, fun heights hchain hheights => ?_, fun height hheight => ?_⟩
  · exact advanceHeight_of_fits hdelta hjobs havail hage hle hheight
  · exact advanceHeights_of_fits hdelta hjobs havail hage hchain hheights
  · exact detach_of_fits hdelta hjobs hfits hcurrent hheight

/-- The deposit gets unlocked with the block before the fortieth, after its container was read from
a store of the older version. -/
theorem unlocked_of_restored_deposit :
    ∃ c unlocked, Restored 6 SpentAvailable c ∧ c.currentHeight = 3 ∧
      advanceHeight 42 c = .done unlocked { c with currentHeight := 42 } ∧
      unlocked.Perm (c.newlyUnlocked Currency.mainnet 6 0 3 42) ∧
      (c.newlyUnlocked Currency.mainnet 6 0 3 42).map TransactionOutputInformation.amount =
      [7, 5] := by
  obtain ⟨c, hrun, hspent, hheight, hfits, hamounts⟩ := exists_run_of_calls 6 depositCalls
    (fun c => c.spentTransfers.toList = [] ∧
      (c.reloadOld ⟨0, 0⟩ 3 6 c.reversedOrder).currentHeight = 3 ∧
      (∀ t ∈ (c.reloadOld ⟨0, 0⟩ 3 6 c.reversedOrder).ledger.confirmed, t.Fits .mainnet 6) ∧
      ((c.reloadOld ⟨0, 0⟩ 3 6 c.reversedOrder).newlyUnlocked Currency.mainnet 6 0 3 42).map
        TransactionOutputInformation.amount = [7, 5])
    saves_depositCalls (by decide +kernel)
  have hnone : c.SpentAvailable := by
    rw [SpentAvailable, hspent]
    exact nofun
  have hrestored := (Restored.of_reached hrun.reached).old ⟨0, 0⟩ 3 c.of_reversedOrder hnone
  have hexact := unlocked_of_restored (by decide) (by decide) hrestored hfits
    (by rw [hheight]; decide) 0
  obtain ⟨unlocked, hadvance, hperm⟩ := hexact.1 42 (by rw [hheight]; decide) (by decide)
  rw [hheight] at hperm
  exact ⟨_, unlocked, hrestored, hheight, hadvance, hperm, hamounts⟩

/-- After a store of the older version is loaded, the job of a spent output makes the height not
advance. -/
theorem unlocking_throws : ∃ c left, Restored 6 (fun _ => True) c ∧ c.currentHeight = 10 ∧
    advanceHeight 16 c = .thrown left := by
  obtain ⟨c, hrun, hheight, hthrows⟩ := @exists_run_of_calls (fun _ _ => True) 6 sameBlockCalls
    (fun c => (c.reloadOld ⟨0, 0⟩ 3 6 c.reversedOrder).currentHeight = 10 ∧
      (match advanceHeight 16 (c.reloadOld ⟨0, 0⟩ 3 6 c.reversedOrder) with
        | .thrown _ => true
        | _ => false) = true) _ (by simp [sameBlockCalls, Saves]) (by decide +kernel)
  split at hthrows
  · next left hthrown =>
    exact ⟨_, left, (Restored.of_reached hrun.reached).old ⟨0, 0⟩ 3 c.of_reversedOrder trivial,
      hheight, hthrown⟩
  · cases hthrows

end TransfersContainer

end DarknetCoin
