import DarknetCoin.Theorems.RetriedLoad
import DarknetCoin.Theorems.WalletFiles

/-!
# Delayed transactions in a file

Transactions that are deleted are left out of a file, and those after them get other numbers. The
transactions that were made and not sent yet are stored under their old numbers, and they are stored
also when the file has no transactions at all.
-/

namespace DarknetCoin

open Data Semantics Program GreenMembers List

variable {σ τ : Type} {ctx : GreenContext σ τ} {password : String}

namespace GreenMembers

/-- The transactions that wait have records under their numbers, which are in the state of such
transactions; a new transaction has another number. -/
def Delayed (ctx : GreenContext σ τ) (w : GreenMembers σ τ) : Prop :=
  ∀ id, ∀ tx ∈ w.uncommitedTransactions.lookup id, ∃ transaction, w.transactions[id]? =
    some transaction ∧ transaction.state = .created ∧ transaction.hash = ctx.getObjectHash tx

variable {pred : WalletTransaction → Bool} {w : GreenMembers σ τ}

theorem filterOutTransactions_fst (i cancelled : Nat) (transactions : List WalletTransaction) :
    (filterOutTransactions pred w i cancelled transactions).1 = transactions.filter fun t =>
    !pred t := by
  induction transactions generalizing i cancelled with
  | nil => rfl
  | cons transaction transactions ih =>
    unfold filterOutTransactions
    cases hpred : pred transaction <;> simp [hpred, ih]

variable {i cancelled : Nat} {transactions : List WalletTransaction}

theorem getElem?_filter_countP {α : Type} {p : α → Bool} {elements : List α} {a : α}
    (ha : elements[i]? = some a) (hp : p a = true) :
    (elements.filter p)[(elements.take i).countP p]? = some a := by
  induction elements generalizing i with
  | nil => cases ha
  | cons first elements ih =>
    cases i with
    | zero =>
      obtain rfl : first = a := Option.some.inj ha
      rw [filter_cons_of_pos hp]
      rfl
    | succ i =>
      have hrest := ih (getElem?_cons_succ ▸ ha)
      rw [take_succ_cons]
      cases hfirst : p first with
      | true => rwa [filter_cons_of_pos hfirst, countP_cons_of_pos hfirst, getElem?_cons_succ]
      | false =>
        have hno : ¬p first = true := by rw [hfirst]; exact Bool.false_ne_true
        rwa [filter_cons_of_neg hno, countP_cons_of_neg hno]

theorem le_of_mem_filterOutTransactions {transfer : Nat × StoredWalletTransfer}
    (hle : cancelled ≤ i)
    (h : transfer ∈ (filterOutTransactions pred w i cancelled transactions).2) :
    i - cancelled ≤ transfer.1 := by
  induction transactions generalizing i cancelled with
  | nil => cases h
  | cons transaction transactions ih =>
    unfold filterOutTransactions at h
    split at h
    · have := ih (Nat.succ_le_succ hle) h
      omega
    · rcases mem_append.mp h with h | h
      · obtain ⟨_, -, rfl⟩ := mem_map.mp h
        exact le_rfl
      · have := ih (Nat.le_succ_of_le hle) h
        omega

/-- A transaction that is left has the transfers it had, under its new number. -/
theorem transfers_filterOutTransactions {k : Nat} {transaction : WalletTransaction}
    (hle : cancelled ≤ i)
    (hk : transactions[k]? = some transaction) (hleft : pred transaction = false) :
    (((filterOutTransactions pred w i cancelled transactions).2.filter fun transfer =>
        transfer.1 = i - cancelled + (transactions.take k).countP fun t => !pred t).map (·.2)) =
      w.getTransactionTransfers (i + k) := by
  induction transactions generalizing i cancelled k with
  | nil => cases hk
  | cons first transactions ih =>
    unfold filterOutTransactions
    cases k with
    | zero =>
      obtain rfl : first = transaction := Option.some.inj hk
      have hlater : (filterOutTransactions pred w (i + 1) cancelled transactions).2.filter
          (fun transfer => decide (transfer.1 = i - cancelled)) = [] := by
        refine filter_eq_nil_iff.mpr fun transfer hmem => ?_
        have := le_of_mem_filterOutTransactions (Nat.le_succ_of_le hle) hmem
        simp only [decide_eq_true_eq]
        omega
      have hown : ((w.getTransactionTransfers i).map (i - cancelled, ·)).filter
          (fun transfer => decide (transfer.1 = i - cancelled)) = (w.getTransactionTransfers i).map
              (i - cancelled, ·) := by
        refine filter_eq_self.mpr fun transfer hmem => ?_
        obtain ⟨_, -, rfl⟩ := mem_map.mp hmem
        exact decide_eq_true rfl
      change map _ (filter (fun transfer : Nat × _ => decide (transfer.1 = i - cancelled)) _) = _
      rw [if_neg (by rw [hleft]; exact Bool.false_ne_true), filter_append, hlater, hown,
        append_nil, map_map]
      exact map_id _
    | succ k =>
      cases hfirst : pred first with
      | true =>
        have hnumber : i + 1 - (cancelled + 1) = i - cancelled := by omega
        have h := ih (Nat.succ_le_succ hle) (getElem?_cons_succ ▸ hk)
        rw [hnumber] at h
        simp only [if_true, take_succ_cons, countP_cons, hfirst, Bool.not_true,
          Bool.false_eq_true, if_false, add_zero]
        rw [h, Nat.succ_add_eq_add_succ]
      | false =>
        have hnumber : i + 1 - cancelled + (transactions.take k).countP (fun t => !pred t) =
            i - cancelled + ((transactions.take k).countP (fun t => !pred t) + 1) := by omega
        have h := ih (Nat.le_succ_of_le hle) (getElem?_cons_succ ▸ hk)
        rw [hnumber] at h
        have hearlier (transfers : List StoredWalletTransfer) (n : Nat) :
            (transfers.map (i - cancelled, ·)).filter
              (fun transfer => decide (transfer.1 = i - cancelled + (n + 1))) = [] := by
          refine filter_eq_nil_iff.mpr fun transfer hmem => ?_
          obtain ⟨_, -, rfl⟩ := mem_map.mp hmem
          simp only [decide_eq_true_eq]
          omega
        simp only [Bool.false_eq_true, if_false, take_succ_cons, countP_cons, hfirst,
          Bool.not_false, if_true, filter_append, hearlier, nil_append]
        rw [h, Nat.succ_add_eq_add_succ]

end GreenMembers

/-- A cipher that is its own inverse and keeps lengths. -/
structure GreenContext.Deciphers (ctx : GreenContext σ τ) (password : String) : Prop where
  inverse : ∀ iv data, ctx.chacha8 password iv (ctx.chacha8 password iv data) = data
  length : ∀ iv data, (ctx.chacha8 password iv data).length = data.length

namespace GreenFile

/-- On a list of records the program returns `a`, changes the members from `w` to `w'` and takes the
records off. -/
def Reads {α : Type} (ctx : GreenContext σ τ) (password : String)
    (p : Program (Feed UInt8 (Loading σ τ)) α)
    (records : List (List UInt8)) (w : GreenMembers σ τ) (a : α) (w' : GreenMembers σ τ) : Prop :=
  ∀ iv more, ∃ iv', p ⟨encrypted ctx password iv (records ++ more), ⟨iv, w⟩⟩ =
    .done a ⟨encrypted ctx password iv' more, ⟨iv', w'⟩⟩

namespace Reads

variable {α β ι : Type} {p : Program (Feed UInt8 (Loading σ τ)) α}
  {f : α → Program (Feed UInt8 (Loading σ τ)) β}
  {records records' : List (List UInt8)} {w w' w'' : GreenMembers σ τ} {a : α} {b : β}

theorem pure (a : α) (w : GreenMembers σ τ) : Reads ctx password (pure a) [] w a w :=
  fun iv _ => ⟨iv, rfl⟩

theorem update (f : GreenMembers σ τ → GreenMembers σ τ) (w : GreenMembers σ τ) :
    Reads ctx password (update f) [] w () (f w) := fun iv _ => ⟨iv, rfl⟩

theorem members (w : GreenMembers σ τ) : Reads ctx password members [] w w w :=
  fun iv _ => ⟨iv, rfl⟩

theorem synchronizer {call : Program σ Unit} {s : σ} (h : call w.synchronizer = .done () s) :
    Reads ctx password (synchronizer call) [] w () { w with synchronizer := s } := by
  intro iv more
  refine ⟨iv, ?_⟩
  unfold GreenFile.synchronizer
  rw [zoom_run, h]
  rfl

theorem bind (hp : Reads ctx password p records w a w')
    (hf : Reads ctx password (f a) records' w' b w'') :
    Reads ctx password (p >>= f) (records ++ records') w b w'' := by
  intro iv more
  obtain ⟨iv', hp⟩ := hp iv (records' ++ more)
  obtain ⟨iv'', hf⟩ := hf iv' more
  refine ⟨iv'', ?_⟩
  rw [bind_run, append_assoc, hp]
  exact hf

theorem step (hp : Reads ctx password p [] w a w')
    (hf : Reads ctx password (f a) records w' b w'') :
    Reads ctx password (p >>= f) records w b w'' :=
  bind hp hf

theorem map (hp : Reads ctx password p records w a w') (hf : Reads ctx password (f a) [] w' b w'') :
    Reads ctx password (p >>= f) records w b w'' := by
  rw [← append_nil records]
  exact bind hp hf

theorem record {codec : Layout UInt8 α} (hcipher : ctx.Deciphers password) (hfits : codec.Fits a)
    {plain : List UInt8}
    (hplain : codec.write a = plain) (hlen : plain.length ≤ maxArraySize) (w : GreenMembers σ τ) :
    Reads ctx password (deserializeEncrypted ctx password codec) [plain] w a w := by
  intro iv more
  have hblob : blobCodec.Fits (ctx.chacha8 password iv plain) := by
    have hle := (hcipher.length iv plain).trans_le hlen
    exact ⟨⟨hle.trans_lt (by decide : maxArraySize < 2 ^ 64), hle⟩, rfl⟩
  have hread := codec.read_write a hfits []
  rw [append_nil, hplain] at hread
  refine ⟨add64 iv 1, ?_⟩
  unfold deserializeEncrypted Feed.take
  rw [bind_run, singleton_append, encrypted]
  rw [blobCodec.read_write _ hblob]
  simp [decrypt, hcipher.inverse, hread]

/-- A list after its length; `loaded` is what the members are when a part of it has been read. -/
theorem counted {body : Program (Feed UInt8 (Loading σ τ)) PUnit} {encode : ι → List (List UInt8)}
    {es : List ι} (hcipher : ctx.Deciphers password) (hcount : es.length < 2 ^ 64)
    (hlen : ∀ plain ∈ word64Codec.write es.length :: es.flatMap encode, plain.length ≤ maxArraySize)
    (loaded : List ι → GreenMembers σ τ) (hfirst : loaded [] = w)
    (h : ∀ done e rest, es = done ++ e :: rest → (∀ plain ∈ encode e, plain.length ≤ maxArraySize) →
      Reads ctx password body (encode e) (loaded done) ⟨⟩ (loaded (done ++ [e]))) :
    Reads ctx password (do times body (← deserializeEncrypted ctx password word64Codec))
      (word64Codec.write es.length :: es.flatMap encode) w ⟨⟩ (loaded es) := by
  obtain ⟨hsize, hlen⟩ := forall_mem_cons.mp hlen
  have hloop (rest done : List ι) (hsplit : es = done ++ rest) :
      Reads ctx password (times body rest.length) (rest.flatMap encode) (loaded done) ⟨⟩
          (loaded es) := by
    induction rest generalizing done with
    | nil =>
      rw [hsplit, append_nil]
      exact pure _ _
    | cons e rest ih =>
      have hmem : e ∈ es := hsplit ▸ mem_append_right _ mem_cons_self
      exact bind (h done e rest hsplit fun plain hplain =>
        hlen plain (mem_flatMap.mpr ⟨e, hmem, hplain⟩))
        (ih (done ++ [e]) (by rw [hsplit, append_assoc]; rfl))
  exact bind (record hcipher hcount rfl hsize w) (hfirst ▸ hloop es [] rfl)

end Reads

/-- The keys of an address that is accepted. -/
def KeysFit (ctx : GreenContext σ τ) (wallet : AddressRecord) : Prop :=
  if wallet.spendSecretKey ≠ 0 then
    ctx.verifyKeys wallet.spendSecretKey wallet.spendPublicKey = true
  else ctx.checkKey wallet.spendPublicKey = true

/-- A wallet record as it is stored. -/
def storedWallet (saveCache : Bool) (wallet : AddressRecord) : AddressRecord :=
  ⟨wallet.spendPublicKey, wallet.spendSecretKey, .null,
    if saveCache then wallet.pendingBalance else 0,
    if saveCache then wallet.actualBalance else 0, wallet.creationTimestamp⟩

end GreenFile

/-- The values have the widths of their types, keys match and are unique, and so are the hashes of
transactions. -/
structure GreenMembers.Storable (ctx : GreenContext σ τ) (saveDetails saveCache : Bool)
    (w : GreenMembers σ τ) : Prop where
  viewKeys : ctx.verifyKeys w.viewSecretKey w.viewPublicKey = true
  walletCount : w.wallets.length < 2 ^ 64
  wallets : ∀ wallet ∈ w.wallets, AddressRecord.codec.Fits (GreenFile.storedWallet saveCache wallet)
  keys : ∀ wallet ∈ w.wallets, GreenFile.KeysFit ctx wallet
  tracking : ∃ isTracking : Bool, ∀ wallet ∈ w.wallets,
    decide (wallet.spendSecretKey = 0) = isTracking
  addresses : (w.wallets.map AddressRecord.spendPublicKey).Nodup
  transactionCount : w.transactions.length < 2 ^ 64
  transactions : ∀ transaction ∈ w.transactions, WalletTransaction.codec.Fits
    { transaction with isBase := false }
  hashes : (w.transactions.map WalletTransaction.hash).Nodup
  transferCount : (w.details saveDetails saveCache).2.length < 2 ^ 64
  transfers : ∀ transfer ∈ (w.details saveDetails saveCache).2,
    transfer.1 < 2 ^ 64 ∧ StoredWalletTransfer.codec.Fits transfer.2
  balances : w.actualBalance < 2 ^ 64 ∧ w.pendingBalance < 2 ^ 64
  synchronizer : blobCodec.Fits (ctx.saveSynchronizer w.synchronizer)
  jobCount : w.unlockTransactions.length < 2 ^ 64
  jobs : ∀ job ∈ w.unlockTransactions, job.blockHeight < 2 ^ 32 ∧ ∃ wallet ∈ w.wallets,
    wallet.container = job.container
  uncommited : (sequenceCodec (entryCodec word64Codec ctx.txCodec)).Fits
    w.uncommitedTransactions.entries
  records : ∀ plain ∈ w.records ctx saveDetails saveCache, plain.length ≤ maxArraySize

namespace GreenFile

section Loops

variable {w : GreenMembers σ τ} (hcipher : ctx.Deciphers password) {saveDetails saveCache : Bool}
  {saved : GreenMembers σ τ}

include hcipher in
/-- The addresses are inserted: their keys are new, and the numbers in the place of pointers too. -/
theorem reads_loadWallets {isTracking : Bool} {wallets : List AddressRecord} {i : Nat}
    {before : Option Bool}
    (hwallets : ∀ wallet ∈ wallets, AddressRecord.codec.Fits wallet ∧ KeysFit ctx wallet ∧
      decide (wallet.spendSecretKey = 0) = isTracking ∧
      (AddressRecord.codec.write wallet).length ≤ maxArraySize)
    (hbefore : ∀ b ∈ before, b = isTracking)
    (hnodup : (wallets.map AddressRecord.spendPublicKey).Nodup)
    (hold : ∀ other ∈ w.wallets, other.spendPublicKey ∉ wallets.map AddressRecord.spendPublicKey ∧
      ∃ j < i, other.container = .ofNumber j) : ∃ loaded, loaded.length =
      w.wallets.length + wallets.length ∧
      Reads ctx password (loadWallets ctx password wallets.length i before)
      (wallets.map AddressRecord.codec.write) w () { w with wallets := loaded } := by
  induction wallets generalizing w i before with
  | nil => exact ⟨w.wallets, rfl, .pure () w⟩
  | cons wallet wallets ih =>
    obtain ⟨⟨hfits, hkeys, htracking, hsize⟩, hwallets⟩ := forall_mem_cons.mp hwallets
    obtain ⟨hnew, hnodup⟩ := nodup_cons.mp hnodup
    have hrecord : Reads ctx password (loadRecord ctx password before)
        [AddressRecord.codec.write wallet] w wallet w := by
      refine .bind (.record hcipher hfits rfl hsize w) ?_
      have hany : before.any (· != decide (wallet.spendSecretKey = 0)) = false := by
        cases before with
        | none => rfl
        | some b =>
          obtain rfl := hbefore b rfl
          exact (congrArg (b != ·) htracking).trans (bne_self_eq_false b)
      rw [hany, if_neg Bool.false_ne_true]
      unfold KeysFit at hkeys
      split at hkeys
      · rw [if_pos ‹_›, if_pos hkeys]
        exact .pure _ w
      · rw [if_neg ‹_›, if_pos hkeys]
        exact .pure _ w
    have hpush : pushWallet { wallet with container := .ofNumber i } w =
        { w with wallets := w.wallets ++ [{ wallet with container := .ofNumber i }] } := by
      refine if_neg fun hany => ?_
      obtain ⟨other, hmem, hsame⟩ := any_eq_true.mp hany
      obtain ⟨hkey, j, hj, hcont⟩ := hold other hmem
      rcases Bool.or_eq_true_iff.mp hsame with hsame | hsame
      · exact hkey (of_decide_eq_true hsame ▸ mem_cons_self)
      · exact hj.ne
          (ContainerPointer.ofNumber_injective (hcont.symm.trans (of_decide_eq_true hsame)))
    have hafter : ∀ other ∈ w.wallets ++ [{ wallet with container := .ofNumber i }],
        other.spendPublicKey ∉ wallets.map AddressRecord.spendPublicKey ∧
            ∃ j < i + 1, other.container = .ofNumber j := by
      intro other hmem
      rcases mem_append.mp hmem with hmem | hmem
      · obtain ⟨hkey, j, hj, hcont⟩ := hold other hmem
        exact ⟨fun hlater => hkey (mem_cons_of_mem _ hlater), j, Nat.lt_succ_of_lt hj, hcont⟩
      · obtain rfl := mem_singleton.mp hmem
        exact ⟨hnew, i, Nat.lt_succ_self i, rfl⟩
    have hmode : ∀ b ∈ some (before.getD (decide (wallet.spendSecretKey = 0))), b = isTracking := by
      rintro b ⟨⟩
      cases before with
      | none => exact htracking
      | some b => exact hbefore b rfl
    obtain ⟨loaded, hcount, hrest⟩ := ih (w := { w with
      wallets := w.wallets ++ [{ wallet with container := .ofNumber i }] }) hwallets hmode
        hnodup hafter
    refine ⟨loaded, ?_, .bind hrecord (.step (.update _ w) (hpush ▸ hrest))⟩
    rw [hcount, length_append, length_singleton, length_cons, add_assoc, add_comm 1]

theorem reads_subscribeWallets (password : String)
    (hsubscribe : ∀ sub s, ∃ s', ctx.addSubscription sub s = .done () s')
    (wallets : List AddressRecord) : ∃ loaded s, loaded.length = w.wallets.length ∧
      Reads ctx password (subscribeWallets ctx wallets) [] w ()
      { w with wallets := loaded, synchronizer := s } := by
  induction wallets generalizing w with
  | nil => exact ⟨w.wallets, w.synchronizer, rfl, .pure () w⟩
  | cons wallet wallets ih =>
    obtain ⟨s, hs⟩ := hsubscribe
      ⟨w.viewPublicKey, wallet.spendPublicKey, w.viewSecretKey, wallet.spendSecretKey,
      ctx.transactionSoftLockTime, max wallet.creationTimestamp 86400 - 86400⟩ w.synchronizer
    obtain ⟨loaded, s', hcount, hrest⟩ := ih (w := { w with
      synchronizer := s
      wallets := w.wallets.map fun other => if other.spendPublicKey = wallet.spendPublicKey
        then { other with container := .subscription wallet.spendPublicKey } else other })
    refine ⟨loaded, s', hcount.trans (length_map _), ?_⟩
    exact .step (.members w) (.step (.synchronizer hs) (.step (.update _ _) hrest))

include hcipher in
theorem reads_loadTransactions {transactions : List WalletTransaction}
    (hcount : transactions.length < 2 ^ 64)
    (hfits : ∀ transaction ∈ transactions, WalletTransaction.codec.Fits
      { transaction with isBase := false })
    (hnodup : (transactions.map WalletTransaction.hash).Nodup)
    (hlen : ∀ plain ∈ word64Codec.write transactions.length ::
      transactions.map WalletTransaction.codec.write,
      plain.length ≤ maxArraySize) (hnone : w.transactions = []) :
    Reads ctx password (loadTransactions ctx password)
      (word64Codec.write transactions.length :: transactions.map WalletTransaction.codec.write) w ()
      { w with
        transactions := transactions.map fun transaction =>
          { transaction with isBase := false } } := by
  rw [← flatMap_pure_eq_map] at hlen ⊢
  refine .counted hcipher hcount hlen (fun done => { w with
    transactions := done.map fun transaction => { transaction with isBase := false } })
    (by rw [map_nil, ← hnone]) fun done transaction rest hsplit hsize => ?_
  have hmem : transaction ∈ transactions := hsplit ▸ mem_append_right _ mem_cons_self
  have hpush : pushTransaction { transaction with isBase := false } { w with
      transactions := done.map fun transaction => { transaction with isBase := false } } = { w with
      transactions := (done ++ [transaction]).map fun transaction =>
          { transaction with isBase := false } } := by
    rw [map_append]
    refine if_neg fun hany => ?_
    obtain ⟨_, hloaded, hsame⟩ := any_eq_true.mp hany
    obtain ⟨other, hother, rfl⟩ := mem_map.mp hloaded
    rw [hsplit, map_append, nodup_append] at hnodup
    exact hnodup.2.2 _ (mem_map_of_mem hother) _ mem_cons_self (of_decide_eq_true hsame)
  exact hpush ▸ .bind (.record hcipher (hfits transaction hmem) rfl (hsize _ mem_cons_self) _)
    (.update _ _)

include hcipher in
theorem reads_loadTransfers {transfers : List (Nat × StoredWalletTransfer)}
    (hcount : transfers.length < 2 ^ 64) (hfits : ∀ transfer ∈ transfers, transfer.1 < 2 ^ 64 ∧
      StoredWalletTransfer.codec.Fits transfer.2)
    (hlen : ∀ plain ∈ word64Codec.write transfers.length :: transfers.flatMap fun (id, transfer) =>
      [word64Codec.write id, StoredWalletTransfer.codec.write transfer], plain.length ≤
      maxArraySize) (hnone : w.transfers = []) : Reads ctx password (loadTransfers ctx password)
      (word64Codec.write transfers.length :: transfers.flatMap fun (id, transfer) =>
        [word64Codec.write id, StoredWalletTransfer.codec.write transfer]) w ()
        { w with transfers } := by
  refine .counted hcipher hcount hlen (fun done => { w with transfers := done })
    (by rw [← hnone]) fun done transfer rest hsplit hsizes => ?_
  obtain ⟨hid, hvalue⟩ := hfits transfer (hsplit ▸ mem_append_right _ mem_cons_self)
  exact .bind (.record hcipher hid rfl (hsizes _ mem_cons_self) _) (.bind
    (.record hcipher hvalue rfl (hsizes _ (mem_cons_of_mem _ mem_cons_self)) _) (.update _ _))

include hcipher in
/-- The jobs are inserted: the addresses they belong to are there. -/
theorem reads_loadUnlockTransactionsJobs {jobs : List UnlockTransactionJobDto}
    (hcount : jobs.length < 2 ^ 64) (hfits : ∀ job ∈ jobs, UnlockTransactionJobDto.codec.Fits job ∧
      job.walletIndex < w.wallets.length)
    (hlen : ∀ plain ∈ word64Codec.write jobs.length :: jobs.map UnlockTransactionJobDto.codec.write,
      plain.length ≤ maxArraySize) :
      ∃ loaded, Reads ctx password (loadUnlockTransactionsJobs ctx password)
      (word64Codec.write jobs.length :: jobs.map UnlockTransactionJobDto.codec.write) w ()
      { w with unlockTransactions := loaded } := by
  rw [← flatMap_pure_eq_map] at hlen ⊢
  refine ⟨_, .counted hcipher hcount hlen (fun done => { w with
    unlockTransactions := w.unlockTransactions ++ done.map fun job => ⟨job.blockHeight,
      w.wallets[job.walletIndex]?.elim .null AddressRecord.container, job.transactionHash⟩ })
    (by rw [map_nil, append_nil]) fun done job rest hsplit hsize => ?_⟩
  obtain ⟨hfits, hidx⟩ := hfits job (hsplit ▸ mem_append_right _ mem_cons_self)
  refine .bind (.record hcipher hfits rfl (hsize _ mem_cons_self) _) (.step (.members _) ?_)
  rw [map_append, ← append_assoc]
  simp only [map_cons, map_nil, getElem?_eq_getElem hidx, Option.elim_some]
  exact .update _ _

variable (hload : ∀ s, ∃ s', ctx.loadSynchronizer (ctx.saveSynchronizer saved.synchronizer) s =
  .done () s')
include hload

variable (hstorable : saved.Storable ctx saveDetails saveCache)
include hstorable

include hcipher in
theorem reads_loadCache (hwallets : w.wallets.length = saved.wallets.length)
    (hlen : ∀ plain ∈ saved.cacheRecords ctx, plain.length ≤ maxArraySize) :
    ∃ jobs s, Reads ctx password (loadCache ctx password) (saved.cacheRecords ctx) w ()
    (initTransactionPool ctx (insertUncommited saved.uncommitedTransactions.entries { w with
        actualBalance := saved.actualBalance
        pendingBalance := saved.pendingBalance
        synchronizer := s
        unlockTransactions := jobs })) := by
  unfold cacheRecords at hlen ⊢
  simp only [forall_mem_cons, forall_mem_append] at hlen
  obtain ⟨hactual, hpending, hblob, ⟨hcount, hjobs⟩, huncommited, -⟩ := hlen
  obtain ⟨s, hs⟩ := hload w.synchronizer
  have hfits : ∀ dto ∈ saved.unlockTransactions.map fun job =>
      UnlockTransactionJobDto.mk job.blockHeight
      job.transactionHash (saved.wallets.findIdx fun wallet => wallet.container = job.container),
      UnlockTransactionJobDto.codec.Fits dto ∧ dto.walletIndex < w.wallets.length := by
    intro dto hmem
    obtain ⟨job, hjob, rfl⟩ := mem_map.mp hmem
    obtain ⟨hheight, wallet, hwallet, hcont⟩ := hstorable.jobs job hjob
    have hidx : saved.wallets.findIdx (fun wallet => decide (wallet.container = job.container)) <
        saved.wallets.length :=
      findIdx_lt_length_of_exists ⟨wallet, hwallet, decide_eq_true hcont⟩
    exact ⟨⟨hheight, fits_digestCodec _, hidx.trans hstorable.walletCount, rfl⟩,
      hidx.trans_eq hwallets.symm⟩
  have hjobCount := hstorable.jobCount
  rw [← length_map] at hjobCount
  obtain ⟨jobs, hreads⟩ := reads_loadUnlockTransactionsJobs hcipher (w := { w with
    actualBalance := saved.actualBalance
    pendingBalance := saved.pendingBalance
    synchronizer := s }) hjobCount hfits (forall_mem_cons.mpr ⟨hcount, hjobs⟩)
  exact ⟨jobs, s, .bind (.record hcipher hstorable.balances.1 rfl hactual w) (.step (.update _ _)
    (.bind (.record hcipher hstorable.balances.2 rfl hpending _) (.step (.update _ _)
    (.bind (.record hcipher hstorable.synchronizer rfl hblob _) (.step (.synchronizer hs)
    (.bind hreads (.bind (.record hcipher hstorable.uncommited rfl huncommited _)
    (.step (.update _ _) (.update _ _)))))))))⟩

omit hstorable in
omit hload in
include hcipher in
theorem reads_loadKeys {viewPublicKey : PublicKey} {viewSecretKey : SecretKey}
    (hkeys : ctx.verifyKeys viewSecretKey viewPublicKey = true)
    (hpublic : (digestCodec.write viewPublicKey).length ≤ maxArraySize)
    (hsecret : (digestCodec.write viewSecretKey).length ≤ maxArraySize) :
    Reads ctx password (loadKeys ctx password)
    [digestCodec.write viewPublicKey, digestCodec.write viewSecretKey] w ()
      { w with viewPublicKey, viewSecretKey } := by
  refine .bind (.record hcipher (fits_digestCodec _) rfl hpublic w) (.step (.update _ _) ?_)
  refine .bind (.record hcipher (fits_digestCodec _) rfl hsecret _) (.step (.update _ _) ?_)
  rw [if_pos hkeys]
  exact .pure () _

omit hload in
include hcipher in
theorem reads_loadDetails (hlen : ∀ plain ∈ if saveDetails then
      detailRecords (saved.details saveDetails saveCache).1
      (saved.details saveDetails saveCache).2 else [], plain.length ≤ maxArraySize)
    (htxs : w.transactions = []) (htransfers : w.transfers = []) :
    Reads ctx password (loadDetails ctx password saveDetails)
      (if saveDetails then detailRecords (saved.details saveDetails saveCache).1
        (saved.details saveDetails saveCache).2 else []) w () { w with
          transactions := (saved.details saveDetails saveCache).1.map fun transaction =>
            { transaction with isBase := false }
          transfers := (saved.details saveDetails saveCache).2 } := by
  cases saveDetails with
  | false =>
    have hsame : w = { w with transactions := [], transfers := [] } := by rw [← htxs, ← htransfers]
    exact (congrArg (Reads ctx password (pure ()) [] w ()) hsame).mp (.pure () w)
  | true =>
    have hkept : (saved.details true saveCache).1.Sublist saved.transactions := by
      have hfst := @GreenMembers.filterOutTransactions_fst σ τ
        (leftOut saveCache) saved 0 0 saved.transactions
      exact hfst ▸ filter_sublist
    simp only [if_true, detailRecords, forall_mem_append] at hlen
    refine .bind
      (reads_loadTransactions hcipher (hkept.length_le.trans_lt hstorable.transactionCount)
      (fun transaction hmem => hstorable.transactions transaction (hkept.subset hmem))
      ((hkept.map _).nodup hstorable.hashes) hlen.1 htxs) ?_
    exact reads_loadTransfers hcipher hstorable.transferCount hstorable.transfers hlen.2 htransfers

include hcipher in
theorem reads_loadRest (hwallets : w.wallets.length = saved.wallets.length)
    (hlen : ∀ plain ∈ if saveCache then saved.cacheRecords ctx else [], plain.length ≤ maxArraySize)
    (huncommited : w.uncommitedTransactions = ∅) :
    ∃ loaded, Reads ctx password (loadRest ctx password 5 saveDetails saveCache)
        (if saveCache then saved.cacheRecords ctx else []) w () loaded ∧
      (∃ isBase : WalletTransaction → Bool, loaded.transactions = w.transactions.map
        fun transaction =>
        { transaction with isBase := isBase transaction }) ∧
      loaded.transfers = w.transfers ∧
      ∀ id, loaded.uncommitedTransactions.lookup id =
        if saveCache then saved.uncommitedTransactions.lookup id else none := by
  have hsame : ∃ isBase : WalletTransaction → Bool, w.transactions = w.transactions.map
      fun transaction =>
      { transaction with isBase := isBase transaction } :=
        ⟨WalletTransaction.isBase, (map_id _).symm⟩
  cases saveCache with
  | false =>
    refine ⟨resetCachedBalance w, .update _ _, hsame, rfl, fun id => ?_⟩
    exact (congrArg (AList.lookup id) huncommited).trans (AList.lookup_empty id)
  | true =>
    obtain ⟨jobs, s, hreads⟩ := reads_loadCache hcipher hload hstorable hwallets hlen
    have hlookup (id : Nat) :
        (insertUncommited saved.uncommitedTransactions.entries w).uncommitedTransactions.lookup id =
        saved.uncommitedTransactions.lookup id := by
      unfold insertUncommited
      rw [huncommited]
      exact lookup_foldl_entries _ id
    refine ⟨_, .map hreads (.update _ _), ?_⟩
    cases saveDetails with
    | false =>
      exact ⟨hsame, rfl, hlookup⟩
    | true =>
      exact ⟨⟨_, rfl⟩, rfl, hlookup⟩

end Loops

section

variable {w : GreenMembers σ τ} {iv : Nat} {saveDetails saveCache : Bool} (hiv : iv < 2 ^ 64)
  (hcipher : ctx.Deciphers password)
    (hsubscribe : ∀ sub s, ∃ s', ctx.addSubscription sub s = .done () s')
  (hload : ∀ s, ∃ s', ctx.loadSynchronizer (ctx.saveSynchronizer w.synchronizer) s = .done () s')
  (hstorable : w.Storable ctx saveDetails saveCache)

include hiv hcipher hsubscribe hload hstorable

/-- A new wallet that loads a saved file has its transactions, its transfers and, with the cache,
its uncommitted transactions. -/
theorem unsafeLoad_unsafeSave (viewPublicKey : PublicKey) (viewSecretKey : SecretKey) (sync : σ) :
    ∃ loaded, unsafeLoad ctx password (w.unsafeSave ctx password iv saveDetails saveCache)
        (.new viewPublicKey viewSecretKey sync) = .done () loaded ∧
      (∃ isBase : WalletTransaction → Bool, loaded.transactions =
        (w.details saveDetails saveCache).1.map
        fun transaction => { transaction with isBase := isBase transaction }) ∧
      loaded.transfers = (w.details saveDetails saveCache).2 ∧
      ∀ id, loaded.uncommitedTransactions.lookup id = if saveCache then
      w.uncommitedTransactions.lookup id else none := by
  have hrecords := hstorable.records
  unfold records at hrecords
  simp only [forall_mem_cons, forall_mem_append] at hrecords
  obtain ⟨hpublic, hsecret, hcount, hwallets, hdetails, hcache, hdetailRecords, hcacheRecords⟩ :=
    hrecords
  obtain ⟨isTracking, htracking⟩ := hstorable.tracking
  -- the addresses and subscriptions
  have hstored : ∀ wallet ∈ w.wallets.map (storedWallet saveCache),
      AddressRecord.codec.Fits wallet ∧
      KeysFit ctx wallet ∧ decide (wallet.spendSecretKey = 0) = isTracking ∧
      (AddressRecord.codec.write wallet).length ≤ maxArraySize := by
    intro _ hmem
    obtain ⟨wallet, hwallet, rfl⟩ := mem_map.mp hmem
    exact ⟨hstorable.wallets wallet hwallet, hstorable.keys wallet hwallet,
      htracking wallet hwallet, hwallets _ (mem_map_of_mem hwallet)⟩
  have hnodup :
      ((w.wallets.map (storedWallet saveCache)).map AddressRecord.spendPublicKey).Nodup := by
    rw [map_map]
    exact hstorable.addresses
  obtain ⟨wallets, hwalletCount, hreadWallets⟩ :=
    reads_loadWallets (i := 0) hcipher (w := .new w.viewPublicKey
    w.viewSecretKey sync) hstored (fun b hb => absurd hb (Option.not_mem_none b)) hnodup
    (fun _ h => absurd h not_mem_nil)
  rw [length_map, map_map] at hreadWallets
  rw [length_map] at hwalletCount
  obtain ⟨subscribed, s, hsubscribedCount, hreadSubscriptions⟩ := reads_subscribeWallets (w := { new
    w.viewPublicKey w.viewSecretKey sync with wallets }) password hsubscribe wallets
  have hreadDetails := reads_loadDetails hcipher (w := { new w.viewPublicKey w.viewSecretKey s with
    wallets := subscribed }) hstorable hdetailRecords rfl rfl
  have hflag (flag : Bool) : boolCodec.Fits flag := by cases flag <;> exact ⟨rfl, rfl⟩
  obtain ⟨loaded, hreadRest, ⟨isBase, htxs⟩, hloaded⟩ := reads_loadRest hcipher (w := { new
      w.viewPublicKey w.viewSecretKey s with
      wallets := subscribed
      transactions := (w.details saveDetails saveCache).1.map fun transaction =>
        { transaction with isBase := false }
      transfers := (w.details saveDetails saveCache).2 }) hload hstorable
    (hsubscribedCount.trans (hwalletCount.trans (zero_add _))) hcacheRecords rfl
  refine ⟨loaded, ?_, ⟨_, htxs.trans (map_map ..)⟩, hloaded⟩
  have hreads : Reads ctx password (loadRecords ctx password 5)
      (w.records ctx saveDetails saveCache) (.new viewPublicKey viewSecretKey sync) () loaded :=
    .bind (reads_loadKeys hcipher hstorable.viewKeys hpublic hsecret)
      (.bind (.record hcipher hstorable.walletCount rfl hcount _) (.bind hreadWallets (.step
      (.members _) (.step hreadSubscriptions (.bind (.record hcipher (hflag _) rfl hdetails _)
      (.bind (.record hcipher (hflag _) rfl hcache _) (.bind hreadDetails hreadRest)))))))
  obtain ⟨iv', hrun⟩ := hreads iv []
  rw [append_nil] at hrun
  have hver := word32Codec.read_write 5 (by decide : 5 < 2 ^ 32)
  have hivFits : ivCodec.Fits iv :=
    ⟨LittleEndian.length_encode 8 iv, LittleEndian.decode_encode hiv⟩
  have hload' : load ctx password ⟨w.unsafeSave ctx password iv saveDetails saveCache,
      ⟨0, .new viewPublicKey viewSecretKey sync⟩⟩ =
          .done () ⟨encrypted ctx password iv' [], ⟨iv', loaded⟩⟩ := by
    unfold load unsafeSave Feed.take
    rw [bind_run, append_assoc]
    rw [hver, Outcome.andThen_done, if_neg (by decide), if_pos (by decide), loadWallet,
      bind_run, Feed.take]
    rw [ivCodec.read_write iv hivFits]
    exact hrun
  rw [unsafeLoad, hload']
  rfl

/-- Transactions that wait are loaded under the numbers of their records if and only if the details
are saved and no deleted transaction, which is left out, has a lower number; transfers stay with
their transactions. -/
theorem delayed_transactions_loaded (hdelayed : w.Delayed ctx)
    (viewPublicKey : PublicKey) (viewSecretKey : SecretKey) (sync : σ) :
    ∃ loaded, unsafeLoad ctx password (w.unsafeSave ctx password iv saveDetails saveCache)
        (.new viewPublicKey viewSecretKey sync) = .done () loaded ∧
      (loaded.Delayed ctx ↔
        (saveCache = true → ∀ id tx, w.uncommitedTransactions.lookup id = some tx →
        saveDetails = true ∧
          ∀ transaction ∈ w.transactions.take id, transaction.state ≠ .deleted)) ∧
      (saveDetails = true → ∀ (i : Nat) (transaction : WalletTransaction),
        w.transactions[i]? = some transaction → GreenMembers.leftOut saveCache transaction = false →
        ∃ (j : Nat) (transaction' : WalletTransaction), loaded.transactions[j]? =
        some transaction' ∧ transaction'.hash = transaction.hash ∧
          loaded.getTransactionTransfers j = w.getTransactionTransfers i) := by
  obtain ⟨loaded, hrun, ⟨isBase, htxs⟩, htransfers, huncommited⟩ :=
    unsafeLoad_unsafeSave hiv hcipher hsubscribe hload hstorable viewPublicKey viewSecretKey sync
  have hkeptList (h : saveDetails = true) : (w.details saveDetails saveCache).1 =
      w.transactions.filter fun transaction => !leftOut saveCache transaction := by
    rw [h]
    exact w.filterOutTransactions_fst 0 0 w.transactions
  -- a transaction that waits is found behind those in front of it that are kept
  have hplace (hcache : saveCache = true) (hdetails : saveDetails = true) {id : Nat}
      {transaction : WalletTransaction} (h : w.transactions[id]? = some transaction)
      (hstate : transaction.state = .created) :
      (w.transactions.filter fun t => !leftOut saveCache t)[(w.transactions.take id).countP
        fun t => !leftOut saveCache t]? = some transaction :=
    getElem?_filter_countP (p := fun t => !leftOut saveCache t) h
      (by simp [leftOut, hstate, hcache])
  refine ⟨loaded, hrun, ⟨fun hloaded hcache id tx htx => ?_, fun hkept id tx htx => ?_⟩, ?_⟩
  · obtain ⟨transaction, htransaction, hstate, hhash⟩ := hdelayed id tx htx
    obtain ⟨found, hfound, -, hhash'⟩ := hloaded id tx (by
      rw [huncommited, if_pos hcache]
      exact htx)
    rw [htxs, getElem?_map] at hfound
    obtain ⟨kept, hkept, rfl⟩ := Option.map_eq_some_iff.mp hfound
    cases hdetails : saveDetails with
    | false =>
      rw [hdetails] at hkept
      cases hkept
    | true =>
      refine ⟨rfl, ?_⟩
      rw [hkeptList hdetails] at hkept
      -- the two records have one hash, so they are one record
      have hnodup : ((w.transactions.filter fun t => !leftOut saveCache t).map
          WalletTransaction.hash).Nodup := (filter_sublist.map _).nodup hstorable.hashes
      have hsame : id = (w.transactions.take id).countP fun t => !leftOut saveCache t := by
        refine (List.getElem?_inj ?_ hnodup).mp ?_
        · rw [length_map]
          exact (List.getElem?_eq_some_iff.mp hkept).1
        · rw [getElem?_map, getElem?_map, hkept, hplace hcache hdetails htransaction hstate,
            Option.map_some, Option.map_some]
          exact congrArg some (hhash'.trans hhash.symm)
      have hlen : (w.transactions.take id).length = id :=
        length_take_of_le (List.getElem?_eq_some_iff.mp htransaction).1.le
      intro other hother hdeleted
      have hall := countP_eq_length.mp (hsame.symm.trans hlen.symm) other hother
      simp [leftOut, hdeleted] at hall
  · rw [huncommited] at htx
    cases hcache : saveCache with
    | false => simp [hcache] at htx
    | true =>
      rw [if_pos hcache] at htx
      obtain ⟨transaction, htransaction, hstate, hhash⟩ := hdelayed id tx htx
      obtain ⟨hdetails, hbefore⟩ := hkept hcache id tx htx
      refine ⟨{ transaction with isBase := isBase transaction }, ?_, hstate, hhash⟩
      have hall : (w.transactions.take id).countP (fun t => !leftOut saveCache t) = id := by
        rw [countP_eq_length.mpr,
          length_take_of_le (List.getElem?_eq_some_iff.mp htransaction).1.le]
        intro other hother
        simp [leftOut, hcache, hbefore other hother]
      have hkept := hplace hcache hdetails htransaction hstate
      rw [hall] at hkept
      rw [htxs, hkeptList hdetails, getElem?_map, hkept, Option.map_some]
  · intro hdetails i transaction htransaction hleft
    refine ⟨(w.transactions.take i).countP fun t => !leftOut saveCache t,
      { transaction with isBase := isBase transaction }, ?_, rfl, ?_⟩
    · have hplace := getElem?_filter_countP (p := fun t => !leftOut saveCache t) htransaction
        (by rw [hleft]; rfl)
      rw [htxs, hkeptList hdetails, getElem?_map, hplace, Option.map_some]
    · have h := transfers_filterOutTransactions (w := w) (i := 0) (le_refl 0) htransaction hleft
      simp only [Nat.zero_add, Nat.sub_self] at h
      subst hdetails
      rw [← h, getTransactionTransfers, htransfers]
      rfl

end

/-- A wallet with a transaction that waits, after another one. -/
def waiting (first : WalletTransactionState) : GreenMembers (List PublicKey) Nat :=
  { (GreenMembers.new 2 1 [] : GreenMembers (List PublicKey) Nat) with
    wallets := [⟨3, 2, .subscription 3, 10, 20, 1500000000⟩]
    transactions := [⟨first, 0, 5, 8, 100, 1, 0, 0, "", false⟩,
      ⟨.created, 0, 4294967295, 9, -50, 1, 0, 0, "", false⟩]
    transfers := [(0, ⟨"", 100, 0⟩), (1, ⟨"", -50, 0⟩)]
    uncommitedTransactions := AList.singleton 1 9 }

theorem storable_waiting : (waiting .succeeded).Storable plainGreen true true := by
  have hword {n : Nat} (h : n < 2 ^ 32) : word64Codec.Fits n := h.trans (by decide)
  have hempty : stringCodec.Fits "" := ⟨⟨⟨(by decide : 0 < 2 ^ 64), Nat.zero_le _⟩, rfl⟩, rfl⟩
  constructor
  case viewKeys => decide
  case wallets =>
    exact forall_mem_singleton.mpr ⟨fits_digestCodec _, fits_digestCodec _, hword (by decide),
    hword (by decide), hword (by decide), rfl⟩
  case keys => exact forall_mem_singleton.mpr (by decide : plainGreen.verifyKeys 2 3 = true)
  case tracking => exact ⟨false, forall_mem_singleton.mpr (by decide)⟩
  case addresses => exact nodup_singleton _
  case transactions =>
    refine forall_mem_cons.mpr ⟨?_, forall_mem_singleton.mpr ?_⟩
    · exact ⟨⟨(by decide : 0 < 2 ^ 8), rfl⟩, hword (by decide), (by decide : 5 < 2 ^ 32),
        fits_digestCodec _,
        ⟨(by decide : 100 < 2 ^ 64), rfl⟩, hword (by decide), hword (by decide), hword (by decide),
          hempty, rfl⟩
    · exact ⟨⟨(by decide : 3 < 2 ^ 8), rfl⟩, hword (by decide), (by decide : 4294967295 < 2 ^ 32),
        fits_digestCodec _,
        ⟨(by decide : word64 - 50 < 2 ^ 64), rfl⟩, hword (by decide), hword (by decide),
          hword (by decide), hempty, rfl⟩
  case hashes => decide
  case transfers =>
    refine forall_mem_cons.mpr ⟨?_, forall_mem_singleton.mpr ?_⟩
    · exact ⟨by decide, hempty, ⟨(by decide : 100 < 2 ^ 64), rfl⟩, (by decide : 0 < 2 ^ 8), rfl⟩
    · exact ⟨by decide, hempty, ⟨(by decide : word64 - 50 < 2 ^ 64), rfl⟩,
                  (by decide : 0 < 2 ^ 8), rfl⟩
  case balances => exact ⟨by decide, by decide⟩
  case synchronizer => exact ⟨⟨(by decide : 0 < 2 ^ 64), Nat.zero_le _⟩, rfl⟩
  case jobs => exact forall_mem_nil _
  case uncommited =>
    exact fits_sequenceCodec
      ⟨by decide, forall_mem_singleton.mpr ⟨hword (by decide), hword (by decide), rfl⟩⟩
  case records => decide +kernel
  all_goals decide

theorem delayed_transactions_loaded_waiting : ∃ loaded,
    unsafeLoad plainGreen "password"
    ((waiting .succeeded).unsafeSave plainGreen "password" 7 true true) (.new 0 0 []) =
        .done () loaded ∧ loaded.Delayed plainGreen ∧
      ∃ (j : Nat) (transaction : WalletTransaction), loaded.transactions[j]? = some transaction ∧
      transaction.hash = 9 ∧ loaded.getTransactionTransfers j = [⟨"", -50, 0⟩] := by
  have hcipher : plainGreen.Deciphers "password" := by
    constructor
    · intro iv data
      simp [plainGreen, Function.comp_def, UInt8.xor_assoc]
    · intro iv data
      exact length_map _
  have hdelayed : (waiting .succeeded).Delayed plainGreen := by
    intro id tx htx
    have hentry := mem_singleton.mp (AList.mem_lookup_iff.mp htx)
    cases hentry
    exact ⟨_, rfl, rfl, rfl⟩
  obtain ⟨loaded, hrun, hloaded, htransfers⟩ :=
    delayed_transactions_loaded (by decide : 7 < 2 ^ 64) hcipher (fun _ s => ⟨_, rfl⟩)
    (fun s => ⟨s, rfl⟩) storable_waiting hdelayed 0 0 []
  refine ⟨loaded, hrun, hloaded.mpr fun _ id tx htx => ⟨rfl, ?_⟩,
    htransfers rfl 1 _ rfl (by decide)⟩
  cases mem_singleton.mp (AList.mem_lookup_iff.mp htx)
  decide

/-- The states and hashes of the transactions of a wallet that was loaded, and the numbers of those
that wait. -/
def waitingNumbers : Outcome (GreenMembers (List PublicKey) Nat) Unit →
    Option (List (WalletTransactionState × Hash) × List Nat)
  | .done _ w => some (w.transactions.map fun transaction => (transaction.state, transaction.hash),
      w.uncommitedTransactions.keys)
  | _ => none

/-- After a deleted transaction was left out, and in a file without transactions, the number of a
transaction that waits is that of no record. -/
theorem delayed_transaction_lost :
    waitingNumbers (unsafeLoad plainGreen "password"
      ((waiting .deleted).unsafeSave plainGreen "password" 7 true true)
        (.new 0 0 [])) = some ([(.created, 9)], [1]) ∧
      waitingNumbers (unsafeLoad plainGreen "password"
        ((waiting .succeeded).unsafeSave plainGreen "password" 7 false true)
        (.new 0 0 [])) = some ([], [1]) := by
  constructor <;> decide +kernel

end GreenFile

end DarknetCoin
