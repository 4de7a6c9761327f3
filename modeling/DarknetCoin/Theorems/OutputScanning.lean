import Mathlib.Tactic.IntervalCases
import DarknetCoin.Model.OutputScanning

/-!
# Sender and recipient number the keys alike

For a multisignature output sender and scanner use its position. For a key output the scanner counts
the keys before it, and the sender takes its position: they agree when the multisignature outputs
before it have as many keys as there are such outputs.
-/

namespace DarknetCoin

open Semantics KeyCrypto OutputRequest List

section Assembly

variable {keys : KeyCrypto} {unwritten : Unwritten}

/-- The output that a call appends as the one at `index`. -/
def OutputRequest.output (keys : KeyCrypto) (unwritten : Unwritten) (secretKey : SecretKey)
    (index : Nat) : OutputRequest → TransactionOutput
  | key amount recipient =>
    ⟨amount, .key (deriveOutputKey keys unwritten recipient secretKey index)⟩
  | multisignature amount recipients requiredSignatures term =>
    ⟨amount, .multisignature
      { keys := recipients.map fun address => deriveOutputKey keys unwritten address secretKey index
        requiredSignatureCount := requiredSignatures
        term }⟩

variable (secretKey : SecretKey)

@[simp] theorem OutputRequest.keyCount_output (index : Nat) (request : OutputRequest) :
    (request.output keys unwritten secretKey index).keyCount = request.addresses.length := by
  cases request with
  | key => rfl
  | multisignature amount recipients => exact length_map _

theorem OutputRequest.outputs_perform (request : OutputRequest) (tx : TransactionImpl) :
    (request.perform keys unwritten tx).outputs =
        tx.outputs ++ [request.output keys unwritten tx.secretKey tx.outputs.length] ∧
      (request.perform keys unwritten tx).secretKey = tx.secretKey := by
  cases request with
  | key => exact ⟨rfl, rfl⟩
  | multisignature => exact ⟨rfl, rfl⟩

variable (requests : List OutputRequest)

theorem outputs_foldl_perform (tx : TransactionImpl) :
    (requests.foldl (fun tx request => request.perform keys unwritten tx) tx).outputs =
        tx.outputs ++ requests.mapIdx fun i request =>
          request.output keys unwritten tx.secretKey (tx.outputs.length + i) := by
  induction requests generalizing tx with
  | nil => simp
  | cons request requests ih =>
    have hperform := @OutputRequest.outputs_perform keys unwritten request tx
    rw [foldl_cons, ih, hperform.1, hperform.2]
    simp [add_assoc, add_comm 1]

theorem secretKey_foldl_perform (tx : TransactionImpl) :
    (requests.foldl (fun tx request => request.perform keys unwritten tx) tx).secretKey =
    tx.secretKey := by
  refine foldlRecOn _ _ (motive := fun result => TransactionImpl.secretKey result = tx.secretKey)
    rfl
    fun result h request _ => ?_
  exact (request.outputs_perform result).2.trans h

theorem outputs_assemble : (assemble keys unwritten secretKey requests).outputs =
      requests.mapIdx fun i request => request.output keys unwritten secretKey i := by
  unfold assemble
  rw [outputs_foldl_perform]
  simp [TransactionImpl.create]

theorem publicKey_assemble :
    (assemble keys unwritten secretKey requests).publicKey keys =
    keys.secretKeyToPublicKey secretKey := by
  unfold TransactionImpl.publicKey assemble
  rw [secretKey_foldl_perform]
  rfl

end Assembly

/-- The number of keys of the first outputs. -/
def keysBefore (outputs : List TransactionOutput) (index : Nat) : Nat :=
  ((outputs.take index).map TransactionOutput.keyCount).sum

theorem keysBefore_cons_succ (output : TransactionOutput) (outputs : List TransactionOutput)
    (index : Nat) :
    keysBefore (output :: outputs) (index + 1) = output.keyCount + keysBefore outputs index := by
  rw [keysBefore, take_succ_cons, map_cons, sum_cons, keysBefore]

variable {κ : Type} {hit : PublicKey → Nat → Option κ} {outputs : List TransactionOutput} {a : κ}
  {index : Nat}

theorem mem_scanOutputs {keyIndex start : Nat} {output : TransactionOutput} :
    (a, index, output) ∈ scanOutputs hit keyIndex start outputs ↔ ∃ i, index = start + i ∧
    outputs[i]? = some output ∧ a ∈ hitsOf hit (keyIndex + keysBefore outputs i) index output := by
  induction outputs generalizing keyIndex start with
  | nil => simp [scanOutputs]
  | cons first outputs ih =>
    rw [scanOutputs, mem_append, mem_map, ih]
    constructor
    · rintro (⟨b, hhits, heq⟩ | ⟨i, rfl, hi, hhits⟩)
      · cases heq
        exact ⟨0, rfl, rfl, hhits⟩
      · refine ⟨i + 1, by omega, hi, ?_⟩
        rwa [keysBefore_cons_succ, ← add_assoc]
    · rintro ⟨i, rfl, hi, hhits⟩
      cases i with
      | zero =>
        cases hi
        exact .inl ⟨a, hhits, rfl⟩
      | succ i =>
        refine .inr ⟨i, by omega, hi, ?_⟩
        rwa [keysBefore_cons_succ, ← add_assoc] at hhits

theorem exists_mem_scanOutputs : (∃ output, (a, index, output) ∈ scanOutputs hit 0 0 outputs) ↔
    ∃ output,
      outputs[index]? = some output ∧ a ∈ hitsOf hit (keysBefore outputs index) index output := by
  simp [mem_scanOutputs]

section Scanners

variable {keys : KeyCrypto} {unwritten : Unwritten} {outputs : List TransactionOutput}
  {txPublicKey : PublicKey} {index : Nat}
  {spendKey : PublicKey} {viewSecretKey : SecretKey} {derivation : KeyDerivation}

theorem mem_outputsOf {found : List (PublicKey × Nat)} :
    index ∈ outputsOf spendKey found ↔ (spendKey, index) ∈ found := by
  unfold outputsOf
  rw [mem_filterMap]
  constructor
  · rintro ⟨⟨key, i⟩, hmem, hsome⟩
    split at hsome
    · rename_i heq
      cases hsome
      exact heq ▸ hmem
    · cases hsome
  · intro hmem
    exact ⟨_, hmem, if_pos rfl⟩

variable (hder : keys.generateKeyDerivation txPublicKey viewSecretKey = some derivation)
include hder

/-- `findMyOutputs` finds the outputs from whose keys the spend key is left when the number is taken
off. -/
theorem mem_findMyOutputs {spendKeys : List PublicKey} (hspend : spendKey ∈ spendKeys) :
    index ∈ outputsOf spendKey
    (findMyOutputs keys unwritten outputs txPublicKey viewSecretKey spendKeys) ↔
      ∃ output, outputs[index]? = some output ∧ spendKey ∈ hitsOf (fun key n =>
          some ((keys.underivePublicKey derivation n key).getD unwritten.publicKey))
            (keysBefore outputs index) index output := by
  have hcheck (key : PublicKey) (n : Nat) :
      checkOutputKey keys unwritten derivation spendKeys key n = some spendKey ↔
        (keys.underivePublicKey derivation n key).getD unwritten.publicKey = spendKey := by
    unfold checkOutputKey
    dsimp only
    split
    · rw [Option.some_inj]
    rename_i hmem
    simp only [reduceCtorEq, false_iff]
    rintro rfl
    exact hmem hspend
  have hhits (output : TransactionOutput) (m : Nat) :
      spendKey ∈ hitsOf (checkOutputKey keys unwritten derivation spendKeys) m index output ↔
        spendKey ∈ hitsOf (fun key n =>
          some ((keys.underivePublicKey derivation n key).getD unwritten.publicKey)) m index
              output := by
    unfold hitsOf
    split <;> simp [hcheck, eq_comm]
  rw [mem_outputsOf, findMyOutputs, hder]
  simp only [← hhits, ← exists_mem_scanOutputs]
  simp

/-- `findOutputsToAccount` finds the outputs that have the key the sender would derive. -/
theorem mem_findOutputsToAccount {address : AccountPublicAddress} :
    index ∈ (findOutputsToAccount keys unwritten outputs txPublicKey address viewSecretKey).1 ↔
      ∃ output, outputs[index]? = some output ∧ () ∈ hitsOf (fun key n =>
          if isOutToKey keys unwritten derivation address.spendPublicKey key n then
          some () else none) (keysBefore outputs index) index output := by
  rw [findOutputsToAccount, hder, ← exists_mem_scanOutputs]
  simp only [mem_map, Prod.exists, exists_and_right, exists_eq_right]
  exact ⟨fun ⟨_, hmem⟩ => hmem, fun hmem => ⟨(), hmem⟩⟩

end Scanners

/-- Both keys of the address are points of the curve. -/
structure AccountPublicAddress.Valid (keys : KeyCrypto) (address : AccountPublicAddress) :
    Prop where
  view : ∀ secretKey, (keys.generateKeyDerivation address.viewPublicKey secretKey).isSome
  spend : ∀ derivation n, (keys.derivePublicKey derivation n address.spendPublicKey).isSome

/-- The address of an account is that of its secret keys. -/
structure AccountKeys.Proper (keys : KeyCrypto) (account : AccountKeys) : Prop where
  view : account.address.viewPublicKey = keys.secretKeyToPublicKey account.viewSecretKey
  spend : account.address.spendPublicKey = keys.secretKeyToPublicKey account.spendSecretKey

/-- The output at `index` was made for the address. -/
def AddressedTo (requests : List OutputRequest) (address : AccountPublicAddress) (index : Nat) :
    Prop :=
  ∃ request, requests[index]? = some request ∧ address ∈ request.addresses

/-- The number of keys that the first calls make. -/
def requestedKeys (requests : List OutputRequest) (index : Nat) : Nat :=
  ((requests.take index).map fun request => request.addresses.length).sum

/-- The key outputs made for the address have as many keys before them as outputs. -/
def Aligned (requests : List OutputRequest) (address : AccountPublicAddress) : Prop :=
  ∀ index amount, requests[index]? = some (.key amount address) →
    requestedKeys requests index = index

/-- The keys made for other addresses are not those the account would expect under the numbers the
scanners give them. -/
def Unmistakable (keys : KeyCrypto) (unwritten : Unwritten) (secretKey : SecretKey)
    (requests : List OutputRequest) (address : AccountPublicAddress) : Prop :=
  ∀ derivation, keys.generateKeyDerivation address.viewPublicKey secretKey = some derivation →
    ∀ index request, requests[index]? = some request → ∀ other ∈ request.addresses,
      other ≠ address → ∀ n ∈ [index, requestedKeys requests index],
        keys.derivePublicKey derivation n address.spendPublicKey ≠
          some (deriveOutputKey keys unwritten other secretKey index)

section Agreement

variable {keys : KeyCrypto} {unwritten : Unwritten} {account : AccountKeys} {secretKey : SecretKey}
  {requests : List OutputRequest}

theorem keysBefore_assemble (index : Nat) :
    keysBefore (assemble keys unwritten secretKey requests).outputs index =
      requestedKeys requests index := by
  have hcounts : (assemble keys unwritten secretKey requests).outputs.map
      TransactionOutput.keyCount = requests.map fun request => request.addresses.length := by
    rw [outputs_assemble]
    apply ext_getElem?
    intro i
    simp only [getElem?_map, getElem?_mapIdx, Option.map_map]
    congr 1
    funext request
    exact request.keyCount_output secretKey i
  rw [keysBefore, requestedKeys, map_take, hcounts, map_take]

variable {address : AccountPublicAddress}

theorem deriveOutputKey_of_valid (h : address.Valid keys) (secretKey : SecretKey) (index : Nat) :
    ∃ derivation, keys.generateKeyDerivation address.viewPublicKey secretKey = some derivation ∧
      keys.derivePublicKey derivation index address.spendPublicKey =
        some (deriveOutputKey keys unwritten address secretKey index) := by
  obtain ⟨derivation, hder⟩ := Option.isSome_iff_exists.mp (h.view secretKey)
  obtain ⟨key, hkey⟩ := Option.isSome_iff_exists.mp (h.spend derivation index)
  refine ⟨derivation, hder, ?_⟩
  unfold deriveOutputKey
  simp [hder, hkey]

/-- The scan hits an output exactly if it was made for the address. -/
theorem mem_hitsOf_iff_addressedTo (haddress : address.Valid keys)
    (hdist : Unmistakable keys unwritten secretKey requests address)
    (haligned : Aligned requests address) {derivation : KeyDerivation}
    (hder : keys.generateKeyDerivation address.viewPublicKey secretKey = some derivation)
    {κ : Type} {hit : PublicKey → Nat → Option κ} {a : κ}
    (hhit : ∀ index request, requests[index]? = some request → ∀ other ∈ request.addresses, ∀ n,
      hit (deriveOutputKey keys unwritten other secretKey index) n = some a ↔
        keys.derivePublicKey derivation n address.spendPublicKey =
          some (deriveOutputKey keys unwritten other secretKey index)) (index : Nat) :
    (∃ output, (assemble keys unwritten secretKey requests).outputs[index]? = some output ∧
      a ∈ hitsOf hit (keysBefore (assemble keys unwritten secretKey requests).outputs index) index
        output) ↔ AddressedTo requests address index := by
  obtain ⟨derivation', hderivation', hderive⟩ :=
    @deriveOutputKey_of_valid keys unwritten address haddress secretKey index
  rw [hder, Option.some_inj] at hderivation'
  subst hderivation'
  rw [keysBefore_assemble, outputs_assemble, getElem?_mapIdx]
  unfold AddressedTo
  cases hreq : requests[index]? with
  | none => simp
  | some request =>
    have hhit := hhit index request hreq
    have hdist := hdist derivation hder index request hreq
    simp only [Option.map_some, Option.some_inj, exists_eq_left']
    cases request with
    | key amount recipient =>
      have hnumber : a ∈ hitsOf hit (requestedKeys requests index) index
          (output keys unwritten secretKey index (.key amount recipient)) ↔
          keys.derivePublicKey derivation (requestedKeys requests index) address.spendPublicKey =
            some (deriveOutputKey keys unwritten recipient secretKey index) := by
        rw [← hhit recipient (mem_singleton_self _)]
        simp [hitsOf, output]
      rw [hnumber, addresses, mem_singleton]
      constructor
      · intro heq
        by_contra hne
        exact hdist recipient (mem_singleton_self _) (.symm hne) _
          (mem_cons_of_mem _ (mem_singleton_self _)) heq
      · rintro rfl
        rw [haligned index amount hreq]
        exact hderive
    | multisignature amount recipients requiredSignatures term =>
      have hnumber : a ∈ hitsOf hit (requestedKeys requests index) index
        (output keys unwritten secretKey index
            (.multisignature amount recipients requiredSignatures term)) ↔
          ∃ other ∈ recipients, keys.derivePublicKey derivation index address.spendPublicKey =
            some (deriveOutputKey keys unwritten other secretKey index) := by
        simp only [hitsOf, output, mem_filterMap, mem_map, exists_exists_and_eq_and]
        exact exists_congr fun other => and_congr_right fun hother => hhit other hother _
      rw [hnumber]
      constructor
      · rintro ⟨other, hother, heq⟩
        by_contra hmem
        have hne : other ≠ address := fun h => hmem (h ▸ hother)
        exact hdist other hother hne index mem_cons_self heq
      · exact fun hmem => ⟨address, hmem, hderive⟩

theorem mem_createTransfers {block : TransactionBlockInfo} {tx : ScannedTransaction}
    {globalIdxs indexes : List Nat} {id : Nat} {transfers : List TransactionOutputInformationIn}
    {complete : Bool} (h : createTransfers keys unwritten account block tx globalIdxs id indexes =
      .ok (transfers, complete))
    {transfer : TransactionOutputInformationIn} (htransfer : transfer ∈ transfers) :
    ∃ index ∈ indexes, ∃ output, tx.outputs[index]? = some output ∧
      createTransfer keys unwritten account block tx globalIdxs id index output = .ok transfer := by
  induction indexes generalizing transfers with
  | nil =>
    cases h
    cases htransfer
  | cons index indexes ih =>
    rw [createTransfers] at h
    split at h
    · cases h
      cases htransfer
    rename_i output houtput
    split at h
    · cases h
    rename_i first hfirst
    split at h
    · cases h
    rename_i rest complete' hrest
    cases h
    rcases mem_cons.mp htransfer with rfl | hmem
    · exact ⟨index, mem_cons_self, output, houtput, hfirst⟩
    · obtain ⟨i, hi, hfound⟩ := ih hrest hmem
      exact ⟨i, mem_cons_of_mem _ hi, hfound⟩

variable (hlaw : keys.Lawful)
include hlaw

/-- What is left of a key made for a valid address when the account takes a number off: its own
spend key exactly when it would have derived the key itself. -/
theorem underive_eq_iff {other : AccountPublicAddress} (hother : other.Valid keys)
    (derivation : KeyDerivation) (n index : Nat) (spendKey : PublicKey) :
    (keys.underivePublicKey derivation n
        (deriveOutputKey keys unwritten other secretKey index)).getD unwritten.publicKey =
        spendKey ↔ keys.derivePublicKey derivation n spendKey =
      some (deriveOutputKey keys unwritten other secretKey index) := by
  obtain ⟨derivation', -, hderive⟩ := deriveOutputKey_of_valid hother secretKey index
  obtain ⟨base, hbase⟩ := Option.isSome_iff_exists.mp
    (hlaw.underive_isSome derivation' derivation index n _ _ hderive)
  rw [← hlaw.underive_eq_some_iff, hbase, Option.getD_some, Option.some_inj]

variable (haccount : account.Proper keys)
include haccount

theorem AccountKeys.Proper.valid : account.address.Valid keys where
  view secretKey := by
    rw [haccount.view]
    exact hlaw.derivation_isSome _ _
  spend derivation n := by
    rw [haccount.spend]
    exact hlaw.derive_isSome _ _ _

theorem generateKeyDerivation_assemble :
    keys.generateKeyDerivation ((assemble keys unwritten secretKey requests).publicKey keys)
    account.viewSecretKey = keys.generateKeyDerivation account.address.viewPublicKey secretKey := by
  rw [publicKey_assemble, haccount.view, hlaw.derivation_comm]

/-- The key image the account computes for a position belongs to the key that an output made for it
has there. -/
theorem generateKeyImageHelper_assemble (index : Nat) :
    ∃ secret, keys.secretKeyToPublicKey secret =
    deriveOutputKey keys unwritten account.address secretKey index ∧
      generateKeyImageHelper keys account
      ((assemble keys unwritten secretKey requests).publicKey keys) index =
        some (⟨deriveOutputKey keys unwritten account.address secretKey index, secret⟩,
          keys.generateKeyImage (deriveOutputKey keys unwritten account.address secretKey index)
          secret) := by
  obtain ⟨derivation, hder, hderive⟩ :=
    @deriveOutputKey_of_valid keys unwritten _ (haccount.valid hlaw) secretKey index
  refine ⟨keys.deriveSecretKey derivation index account.spendSecretKey, ?_, ?_⟩
  · rw [haccount.spend] at hderive
    exact hlaw.derive_secret _ _ _ _ hderive
  · unfold generateKeyImageHelper
    rw [generateKeyDerivation_assemble hlaw haccount, hder]
    dsimp only
    rw [hderive]

/-- A key output whose number of keys before it is not its position is missed by both scanners. -/
theorem not_found_of_unaligned (hnumbers : keys.TellsNumbersApart) {index amount : Nat}
    (hreq : requests[index]? = some (.key amount account.address))
    (hunaligned : requestedKeys requests index ≠ index) (hidx : index < word64)
    (hkeys : requestedKeys requests index < word64) {spendKeys : List PublicKey}
    (hspend : account.address.spendPublicKey ∈ spendKeys) :
    index ∉ outputsOf account.address.spendPublicKey (findMyOutputs keys unwritten
        (assemble keys unwritten secretKey requests).outputs
        ((assemble keys unwritten secretKey requests).publicKey keys) account.viewSecretKey
        spendKeys) ∧ index ∉ (findOutputsToAccount keys unwritten
        (assemble keys unwritten secretKey requests).outputs
        ((assemble keys unwritten secretKey requests).publicKey keys) account.address
        account.viewSecretKey).1 := by
  have haddress := haccount.valid hlaw
  obtain ⟨derivation, hder, hderive⟩ :=
    @deriveOutputKey_of_valid keys unwritten _ haddress secretKey index
  have hshared := @generateKeyDerivation_assemble keys unwritten account secretKey requests
    hlaw haccount
  rw [hder] at hshared
  have houtput : (assemble keys unwritten secretKey requests).outputs[index]? =
      some ⟨amount, .key (deriveOutputKey keys unwritten account.address secretKey index)⟩ := by
    rw [outputs_assemble, getElem?_mapIdx, hreq]
    rfl
  -- the account would have to derive one key under two numbers
  have hmiss : keys.derivePublicKey derivation
      (requestedKeys requests index) account.address.spendPublicKey ≠
        some (deriveOutputKey keys unwritten account.address secretKey index) :=
    fun heq => hunaligned (hnumbers _ _ _ _ _ hkeys hidx heq hderive)
  constructor
  · rw [mem_findMyOutputs hshared hspend, keysBefore_assemble, houtput]
    have hnone : (keys.underivePublicKey derivation (requestedKeys requests index)
        (deriveOutputKey keys unwritten account.address secretKey index)).getD unwritten.publicKey ≠
          account.address.spendPublicKey :=
      (not_congr (underive_eq_iff hlaw haddress _ _ _ _)).mpr hmiss
    simpa [hitsOf] using hnone.symm
  · rw [mem_findOutputsToAccount hshared, keysBefore_assemble, houtput]
    obtain ⟨key, hkey⟩ := Option.isSome_iff_exists.mp
      (haddress.spend derivation (requestedKeys requests index))
    simpa [hitsOf, isOutToKey, hkey] using hmiss

end Agreement

namespace KeyCrypto

theorem additive_lawful : additive.Lawful where
  derivation_isSome _ _ := rfl
  derivation_comm r v := by simp [additive, mul_comm]
  derive_isSome _ _ _ := rfl
  underive_isSome _ _ _ _ _ _ _ := rfl
  underive_eq_some_iff derivation n base key := by
    simp only [additive, Option.some_inj]
    exact sub_eq_iff_eq_add.trans eq_comm
  derive_secret derivation n s key h := by simpa [additive] using h

theorem additive_tellsNumbersApart : additive.TellsNumbersApart := by
  intro derivation base key n m hn hm hderive hderive'
  simp only [additive, Option.some_inj] at hderive hderive'
  have heq : BitVec.ofNat 256 n = BitVec.ofNat 256 m :=
    add_left_cancel (add_left_cancel (hderive.trans hderive'.symm))
  have hnat := congrArg BitVec.toNat heq
  have hle : word64 ≤ 2 ^ 256 := by decide
  rwa [BitVec.toNat_ofNat, BitVec.toNat_ofNat, Nat.mod_eq_of_lt (hn.trans_le hle),
    Nat.mod_eq_of_lt (hm.trans_le hle)] at hnat

end KeyCrypto

/-- The account of two secret keys. -/
def additiveAccount (spend view : SecretKey) (id : Nat) : AccountKeys :=
  ⟨⟨spend, view⟩, spend, view, id⟩

theorem additiveAccount_proper (spend view : SecretKey) (id : Nat) :
    (additiveAccount spend view id).Proper additive := ⟨rfl, rfl⟩

/-- A payment to the account after a deposit of somebody else, with two deposits at the end. -/
def alignedRequests : List OutputRequest :=
  [.multisignature 10 [⟨5000, 9⟩] 1 0, .key 7 ⟨1000, 7⟩, .key 5 ⟨6000, 11⟩,
    .multisignature 20 [⟨5000, 9⟩, ⟨1000, 7⟩] 1 0, .multisignature 30 [] 0 0]

/-- The transaction that was assembled, as a wallet reads it. -/
def assembledTransaction (requests : List OutputRequest) : ScannedTransaction where
  transactionHash := 1
  transactionPublicKey := (assemble additive Unwritten.zero 3 requests).publicKey additive
  unlockTime := 0
  paymentId := none
  extra := []
  inputTotalAmount := 0
  outputTotalAmount := 0
  inputs := []
  outputs := (assemble additive Unwritten.zero 3 requests).outputs

/-- A payment to the account after a deposit of two others. -/
def unalignedRequests : List OutputRequest :=
  [.multisignature 10 [⟨5000, 9⟩, ⟨6000, 11⟩] 1 0, .key 7 ⟨1000, 7⟩]

end DarknetCoin
