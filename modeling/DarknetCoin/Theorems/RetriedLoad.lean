import DarknetCoin.Model.WalletGreenFile

/-!
# Loading again after a failure

A load that throws leaves what it has read. When it throws before the first address or transaction
of the file was inserted only the keys of the wallet are left, and they are overwritten by the next
file. What was inserted is never taken out again.
-/

namespace DarknetCoin

open Data Semantics Program

namespace GreenFile

variable {σ τ : Type} {ctx : GreenContext σ τ} {password : String} {α : Type}

/-- The first part of a load, which `opening_foretells` compares with the whole: up to the first
address, or the first transaction of a file without addresses. The result is whether there is one to
insert. -/
def opening (ctx : GreenContext σ τ) (password : String) :
    Program (Feed UInt8 (Loading σ τ)) Bool := do
  let version ← Feed.take word32Codec.read
  if version > 5 then throw
  else if version > 2 then do
    let iv ← Feed.take ivCodec.read
    Feed.update fun s => { s with iv }
    loadKeys ctx password
    let count ← deserializeEncrypted ctx password word64Codec
    if count = 0 then do
      let w ← members
      subscribeWallets ctx w.wallets
      let details ← deserializeEncrypted ctx password boolCodec
      let _ ← deserializeEncrypted ctx password boolCodec
      if details then do
        let transactions ← deserializeEncrypted ctx password word64Codec
        if transactions = 0 then do
          let _ ← deserializeEncrypted ctx password word64Codec
          pure false
        else do
          let _ ← deserializeEncrypted ctx password WalletTransaction.codec
          pure true
      else pure false
    else do
      let _ ← loadRecord ctx password none
      pure true
  else do
    let iv ← Feed.take ivCodec.read
    let cipher ← Feed.take blobCodec.read
    Program.modify fun s => { s with input := ctx.chacha8 password iv cipher }
    let _ ← Feed.take (KeysStorage.codec false).read
    pure true

theorem members_bind_run (f : GreenMembers σ τ → Program (Feed UInt8 (Loading σ τ)) α)
    (s : Feed UInt8 (Loading σ τ)) : (members >>= f) s = f s.target.members s := rfl

section Keeps

variable {J : GreenMembers σ τ → Prop} {α : Type}

theorem keeps_take (reader : List UInt8 → Option (α × List UInt8)) :
    Keeps (fun s : Feed UInt8 (Loading σ τ) => J s.target.members) (Feed.take reader) :=
  .take (fun loading : Loading σ τ => J loading.members) reader

theorem keeps_deserializeEncrypted (codec : Layout UInt8 α) :
    Keeps (fun s : Feed UInt8 (Loading σ τ) => J s.target.members)
    (deserializeEncrypted ctx password codec) := by
  refine .bind (keeps_take _) fun cipher s hs => ?_
  unfold decrypt
  split
  · exact hs
  · exact hs

theorem keeps_loadRecord (isTrackingMode : Option Bool) :
    Keeps (fun s : Feed UInt8 (Loading σ τ) => J s.target.members)
    (loadRecord ctx password isTrackingMode) := by
  refine .bind (keeps_deserializeEncrypted _) fun dto => ?_
  refine .ite (fun _ => .throw) fun _ => ?_
  refine .ite (fun _ => ?_) fun _ => ?_
  · exact .ite (fun _ => .pure _) fun _ => .throw
  · exact .ite (fun _ => .pure _) fun _ => .throw

section

variable (hpublic : ∀ w viewPublicKey, J w → J { w with viewPublicKey })
  (hsecret : ∀ w viewSecretKey, J w → J { w with viewSecretKey })

include hpublic hsecret

theorem keeps_loadKeys : Keeps (fun s : Feed UInt8 (Loading σ τ) => J s.target.members)
    (loadKeys ctx password) := by
  refine .bind (keeps_deserializeEncrypted _) fun viewPublicKey => ?_
  refine .bind (.modify fun s hs => hpublic _ _ hs) fun _ => ?_
  refine .bind (keeps_deserializeEncrypted _) fun viewSecretKey => ?_
  refine .bind (.modify fun s hs => hsecret _ _ hs) fun _ => ?_
  exact .ite (fun _ => .pure _) fun _ => .throw

/-- The first part of a load writes the keys only, to a wallet without addresses. -/
theorem keeps_opening (hempty : ∀ w, J w → w.wallets = []) :
    Keeps (fun s : Feed UInt8 (Loading σ τ) => J s.target.members) (opening ctx password) := by
  refine .bind (keeps_take _) fun version => ?_
  refine .ite (fun _ => .throw) fun _ => .ite (fun _ => ?_) fun _ => ?_
  · refine .bind (keeps_take _) fun iv => ?_
    refine .bind (.modify fun s hs => hs) fun _ => ?_
    refine .bind (keeps_loadKeys hpublic hsecret) fun _ => ?_
    refine .bind (keeps_deserializeEncrypted _) fun count => .ite (fun _ s hs => ?_) fun _ => ?_
    · rw [members_bind_run, hempty _ hs, subscribeWallets]
      refine Keeps.bind (keeps_deserializeEncrypted _) (fun details => ?_) s hs
      refine .bind (keeps_deserializeEncrypted _) fun _ => .ite (fun _ => ?_) fun _ => .pure _
      refine .bind (keeps_deserializeEncrypted _) fun transactions => .ite (fun _ => ?_) fun _ => ?_
      · exact Keeps.bind (keeps_deserializeEncrypted _) fun _ => Keeps.pure _
      · exact Keeps.bind (keeps_deserializeEncrypted _) fun _ => Keeps.pure _
    · exact Keeps.bind (keeps_loadRecord _) fun _ => Keeps.pure _
  · refine .bind (keeps_take _) fun iv => ?_
    refine .bind (keeps_take _) fun cipher => ?_
    refine .bind (.modify fun s hs => hs) fun _ => ?_
    exact .bind (keeps_take _) fun _ => .pure _

end

end Keeps

/-- An address or a transaction is there. -/
def Occupied (w : GreenMembers σ τ) : Prop := w.wallets ≠ [] ∨ w.transactions ≠ []

section Occupied

/-- The program does not empty the wallet. -/
abbrev Fills {α : Type} (p : Program (Feed UInt8 (Loading σ τ)) α) : Prop :=
  Keeps (fun s => Occupied s.target.members) p

theorem ne_nil_of_any {l : List α} {p : α → Bool} (h : l.any p = true) : l ≠ [] := by
  obtain ⟨a, ha, -⟩ := List.any_eq_true.mp h
  exact List.ne_nil_of_mem ha

theorem occupied_pushWallet (wallet : AddressRecord) (w : GreenMembers σ τ) :
    Occupied (pushWallet wallet w) := by
  unfold pushWallet
  split
  · exact .inl (ne_nil_of_any ‹_›)
  · exact .inl (List.append_ne_nil_of_right_ne_nil _ (List.cons_ne_nil _ _))

theorem occupied_pushTransaction (transaction : WalletTransaction) (w : GreenMembers σ τ) :
    Occupied (pushTransaction transaction w) := by
  unfold pushTransaction
  split
  · exact .inr (ne_nil_of_any ‹_›)
  · exact .inr (List.append_ne_nil_of_right_ne_nil _ (List.cons_ne_nil _ _))

theorem fills_update {f : GreenMembers σ τ → GreenMembers σ τ}
    (h : ∀ w, Occupied w → Occupied (f w)) : Fills (update f) := .modify fun _ hs => h _ hs

theorem fills_synchronizer (call : Program σ Unit) :
    Fills (synchronizer call : Program (Feed UInt8 (Loading σ τ)) Unit) := by
  refine .zoom fun s hs => ?_
  cases call s.target.members.synchronizer with
  | stuck => trivial
  | _ => exact hs

theorem fills_loadWallets (count i : Nat) (isTrackingMode : Option Bool) :
    Fills (loadWallets ctx password count i isTrackingMode) := by
  induction count generalizing i isTrackingMode with
  | zero => exact .pure _
  | succ count ih =>
    refine .bind (keeps_loadRecord _) fun dto => .bind ?_ fun _ => ih _ _
    exact fills_update fun w _ => occupied_pushWallet _ w

theorem fills_subscribeWallets (wallets : List AddressRecord) :
    Fills (subscribeWallets ctx wallets : Program (Feed UInt8 (Loading σ τ)) Unit) := by
  induction wallets with
  | nil => exact .pure _
  | cons wallet wallets ih =>
    refine .bind (.read _) fun w => .bind (fills_synchronizer _) fun _ => .bind ?_ fun _ => ih
    exact fills_update fun w => Or.imp_left (mt List.map_eq_nil_iff.mp)

theorem fills_transactions (count : Nat) : Fills (times (do
    let dto ← deserializeEncrypted ctx password WalletTransaction.codec
    update (pushTransaction dto)) count : Program (Feed UInt8 (Loading σ τ)) Unit) :=
  .times (.bind (keeps_deserializeEncrypted _) fun _ => fills_update fun w _ =>
    occupied_pushTransaction _ w) _

theorem fills_loadTransfers : Fills (loadTransfers ctx password) := by
  refine .bind (keeps_deserializeEncrypted _) fun count =>
    .times (.bind (keeps_deserializeEncrypted _) fun id => ?_) _
  exact .bind (keeps_deserializeEncrypted _) fun dto => fills_update fun w hw => hw

theorem fills_loadDetails (details : Bool) : Fills (loadDetails ctx password details) :=
  .ite (fun _ => .bind (.bind (keeps_deserializeEncrypted _) fun _ => fills_transactions _)
    fun _ => fills_loadTransfers) fun _ => .pure _

theorem fills_loadCache : Fills (loadCache ctx password) := by
  refine .bind (keeps_deserializeEncrypted _) fun _ =>
    .bind (fills_update fun w hw => hw) fun _ => ?_
  refine .bind (keeps_deserializeEncrypted _) fun _ =>
    .bind (fills_update fun w hw => hw) fun _ => ?_
  refine .bind (keeps_deserializeEncrypted _) fun _ => .bind (fills_synchronizer _) fun _ =>
    .bind ?_ fun _ => ?_
  · refine .bind (keeps_deserializeEncrypted _) fun _ => .times
      (.bind (keeps_deserializeEncrypted _) fun dto => .bind (.read _) fun w => ?_) _
    split
    · exact fun _ _ => trivial
    · exact fills_update fun w hw => hw
  · exact .bind (keeps_deserializeEncrypted _) fun _ => .bind (fills_update fun w hw => hw) fun _ =>
      fills_update fun w hw => hw

theorem fills_loadRest (version : Nat) (details cache : Bool) :
    Fills (loadRest ctx password version details cache) := by
  have hreset : ∀ w : GreenMembers σ τ, Occupied w → Occupied (resetCachedBalance w) :=
    fun w => Or.imp_left (mt List.map_eq_nil_iff.mp)
  refine .ite (fun _ => fills_update fun w hw => hreset _ hw) fun _ => .ite (fun _ => ?_) fun _ =>
    fills_update hreset
  refine .bind fills_loadCache fun _ => fills_update fun w hw => ?_
  split
  · exact hw.imp_right (mt List.map_eq_nil_iff.mp)
  · exact hw

theorem fills_addWalletV1Details (transfers : List StoredTransfer) (id : Nat)
    (txs : List StoredTransaction) : Fills (addWalletV1Details ctx transfers id txs) := by
  induction txs generalizing id with
  | nil => exact .pure _
  | cons tx txs ih =>
    refine .bind (fills_update fun w _ => occupied_pushTransaction _ w) fun _ => ?_
    split
    · exact ih _
    · exact .ite (fun _ => .throw) fun _ => .bind (fills_update fun w hw => hw) fun _ => ih _

/-- What `loadRecords` does after the addresses. -/
theorem fills_subscribed (version : Nat) : Fills (do
    let w ← members
    subscribeWallets ctx w.wallets
    let details ← deserializeEncrypted ctx password boolCodec
    let cache ← deserializeEncrypted ctx password boolCodec
    loadDetails ctx password details
    loadRest ctx password version details cache) :=
  .bind (.read _) fun _ => .bind (fills_subscribeWallets _) fun _ =>
    .bind (keeps_deserializeEncrypted _) fun _ => .bind (keeps_deserializeEncrypted _) fun _ =>
      .bind (fills_loadDetails _) fun _ => fills_loadRest _ _ _

/-- What `loadPlainV1` does after the address is inserted. -/
theorem fills_checked (ok : Bool) : Fills (if ok then do
    let w ← members
    subscribeWallets ctx w.wallets
    let detailsSaved ← Feed.take boolCodec.read
    if detailsSaved then do
      let txs ← Feed.take (sequenceCodec (StoredTransaction.codec ctx.unsetBM)).read
      let transfers ← Feed.take (sequenceCodec (StoredTransfer.codec ctx.unsetBM)).read
      addWalletV1Details ctx transfers 0 txs
    else pure ()
  else throw : Program (Feed UInt8 (Loading σ τ)) Unit) := by
  refine .ite (fun _ => ?_) fun _ => .throw
  refine .bind (.read _) fun _ => .bind (fills_subscribeWallets _) fun _ =>
    .bind (keeps_take _) fun _ => ?_
  exact .ite (fun _ => .bind (keeps_take _) fun _ => .bind (keeps_take _) fun _ =>
    fills_addWalletV1Details _ _ _) fun _ => .pure _

theorem fills_load : Fills (load ctx password) := by
  refine .bind (keeps_take _) fun version => .ite (fun _ => .throw) fun _ =>
    .ite (fun _ => ?_) fun _ => ?_
  · refine .bind (keeps_take _) fun _ => .bind (.modify fun _ hs => hs) fun _ =>
      .bind ?_ fun _ => ?_
    · exact keeps_loadKeys (fun _ _ hw => hw) fun _ _ hw => hw
    · exact .bind (keeps_deserializeEncrypted _) fun _ => .bind (fills_loadWallets _ _ _) fun _ =>
        fills_subscribed _
  · refine .bind (keeps_take _) fun _ => .bind (keeps_take _) fun _ =>
      .bind (.modify fun _ hs => hs) fun _ => ?_
    exact .bind (keeps_take _) fun _ => .bind (fills_update fun w _ => occupied_pushWallet _ _)
      fun _ => fills_checked _

theorem occupied_of_thrown {s t : Feed UInt8 (Loading σ τ)}
    {f : GreenMembers σ τ → GreenMembers σ τ} {rest : Program (Feed UInt8 (Loading σ τ)) Unit}
    (h : (update f >>= fun _ => rest) s = .thrown t)
    (hf : Occupied (f s.target.members)) (hrest : Fills rest) : Occupied t.target.members := by
  have hends := hrest { s with target := { s.target with members := f s.target.members } } hf
  rw [show rest _ = .thrown t from h] at hends
  exact hends

/-- What the first part says of a load from the same state: if it throws, so does the load; if there
is something to insert, a load that throws leaves it. -/
def Foretells (o : Outcome (Feed UInt8 (Loading σ τ)) Bool)
    (o' : Outcome (Feed UInt8 (Loading σ τ)) Unit) : Prop :=
  match o with
  | .thrown t => o' = .thrown t
  | .done insert _ => insert = true → ∀ t, o' = .thrown t → Occupied t.target.members
  | .stuck => o' = .stuck

theorem foretells_bind {p : Program (Feed UInt8 (Loading σ τ)) α} {f : α → Program _ Bool}
    {g : α → Program _ Unit} (h : ∀ a s, Foretells (f a s) (g a s)) (s : Feed UInt8 (Loading σ τ)) :
    Foretells ((p >>= f) s) ((p >>= g) s) := by
  rw [bind_run, bind_run]
  cases p s with
  | done a s => exact h a s
  | thrown s => rfl
  | stuck => rfl

/-- The first part decides what a load that throws leaves behind. -/
theorem opening_foretells (s : Feed UInt8 (Loading σ τ)) :
    Foretells (opening ctx password s) (load ctx password s) := by
  refine foretells_bind (fun version => ?_) s
  split
  · exact fun _ => rfl
  split
  · refine foretells_bind fun iv => foretells_bind fun _ => foretells_bind fun _ =>
      foretells_bind fun count => ?_
    cases count with
    | zero =>
      rw [loadWallets, pure_bind]
      refine foretells_bind fun w => foretells_bind fun _ => foretells_bind fun details =>
        foretells_bind fun cache => ?_
      cases details with
      | false => exact fun _ => nofun
      | true =>
        rw [loadDetails, if_pos rfl, if_pos rfl, loadTransactions, bind_assoc, bind_assoc]
        refine foretells_bind fun transactions => ?_
        cases transactions with
        | zero =>
          rw [times, pure_bind, loadTransfers, bind_assoc]
          exact foretells_bind fun _ _ => nofun
        | succ transactions =>
          rw [times, bind_assoc, bind_assoc]
          refine foretells_bind fun dto s _ t h => ?_
          exact occupied_of_thrown h (occupied_pushTransaction _ _)
            (.bind (fills_transactions _) fun _ => .bind fills_loadTransfers fun _ =>
              fills_loadRest _ _ _)
    | succ count =>
      rw [loadWallets, bind_assoc]
      refine foretells_bind fun dto s _ t h => ?_
      rw [bind_assoc] at h
      exact occupied_of_thrown h (occupied_pushWallet _ _)
        (.bind (fills_loadWallets _ _ _) fun _ => fills_subscribed _)
  · refine foretells_bind fun iv => foretells_bind fun cipher => foretells_bind fun _ =>
      foretells_bind ?_
    exact fun storage s _ t h => occupied_of_thrown h (occupied_pushWallet _ _) (fills_checked _)

theorem load_of_opening {s t : Feed UInt8 (Loading σ τ)} (h : opening ctx password s = .thrown t) :
    load ctx password s = .thrown t := by
  have hforetells := @opening_foretells σ τ ctx password s
  rwa [h] at hforetells

end Occupied

/-- Other keys. -/
def withKeys (viewPublicKey : PublicKey) (viewSecretKey : SecretKey)
    (s : Feed UInt8 (Loading σ τ)) : Feed UInt8 (Loading σ τ) :=
  { s with target := { s.target with
    members := { s.target.members with viewPublicKey, viewSecretKey } } }

variable {a : PublicKey} {b : SecretKey} {s t : Feed UInt8 (Loading σ τ)}

theorem take_withKeys (reader : List UInt8 → Option (α × List UInt8)) :
    Feed.take reader (withKeys a b s) = (Feed.take reader s).mapState (withKeys a b) := by
  simp only [Feed.take, withKeys]
  split <;> rfl

theorem deserializeEncrypted_withKeys (codec : Layout UInt8 α) :
    deserializeEncrypted ctx password codec (withKeys a b s) =
      (deserializeEncrypted ctx password codec s).mapState (withKeys a b) := by
  unfold deserializeEncrypted
  rw [bind_run, bind_run, take_withKeys]
  cases Feed.take blobCodec.read s with
  | done cipher s =>
    simp only [Outcome.mapState, Outcome.andThen_done, decrypt, withKeys]
    split <;> rfl
  | thrown s => rfl
  | stuck => rfl

theorem loadKeys_withKeys (h : loadKeys ctx password s = .done () t) :
    loadKeys ctx password (withKeys a b s) = .done () t := by
  unfold loadKeys at h ⊢
  rw [bind_run, deserializeEncrypted_withKeys]
  rw [bind_run] at h
  cases hpublic : deserializeEncrypted ctx password digestCodec s with rw [hpublic] at h
  | thrown s₁ => cases h
  | stuck => cases h
  | done viewPublicKey s₁ =>
    -- both runs go on from the state before the first key is written
    change (deserializeEncrypted ctx password digestCodec
      (withKeys viewPublicKey s₁.target.members.viewSecretKey s₁)).andThen _ = _ at h
    change (deserializeEncrypted ctx password digestCodec
      (withKeys viewPublicKey b s₁)).andThen _ = _
    rw [deserializeEncrypted_withKeys] at h ⊢
    cases hsecret : deserializeEncrypted ctx password digestCodec s₁ with rw [hsecret] at h
    | thrown s₂ => cases h
    | stuck => cases h
    | done viewSecretKey s₂ =>
      exact h

theorem take_bind_withKeys {reader : List UInt8 → Option (α × List UInt8)}
    {f : α → Program (Feed UInt8 (Loading σ τ)) Unit} (h : (Feed.take reader >>= f) s = .done () t)
    (hf : ∀ x s, f x s = .done () t → f x (withKeys a b s) = .done () t) :
    (Feed.take reader >>= f) (withKeys a b s) = .done () t := by
  obtain ⟨x, s', htake, h⟩ := bind_eq_done.mp h
  refine bind_eq_done.mpr ⟨x, withKeys a b s', ?_, hf x s' h⟩
  rw [take_withKeys, htake]
  rfl

/-- A load does not depend on the keys that are there: those of the file are written before keys are
used. -/
theorem load_withKeys (h : load ctx password s = .done () t) : load ctx password (withKeys a b s) =
    .done () t := by
  refine take_bind_withKeys h fun version s h => ?_
  split
  · rw [if_pos ‹_›] at h
    cases h
  rw [if_neg ‹_›] at h
  split
  · rw [if_pos ‹_›] at h
    refine take_bind_withKeys h fun iv s h => ?_
    obtain ⟨_, s₁, hiv, hload⟩ := bind_eq_done.mp h
    obtain ⟨_, s₂, hkeys, hrest⟩ := bind_eq_done.mp hload
    cases hiv
    exact bind_eq_done.mpr ⟨(), _, rfl, bind_eq_done.mpr ⟨(), s₂, loadKeys_withKeys hkeys, hrest⟩⟩
  · rw [if_neg ‹_›] at h
    refine take_bind_withKeys h fun iv s h => take_bind_withKeys h fun cipher s h => ?_
    exact take_bind_withKeys (s := { s with input := ctx.chacha8 password iv cipher }) h
      fun storage s h => h

/-- A cipher that depends on the length of the password, keys that match if they follow each other,
and a synchroniser that lists its subscriptions. -/
def plainGreen : GreenContext (List PublicKey) Nat where
  txCodec := word64Codec
  getObjectHash tx := BitVec.ofNat 256 tx
  chacha8 password _ data := data.map (· ^^^ UInt8.ofNat password.length)
  verifyKeys secretKey publicKey := publicKey = secretKey + 1
  checkKey _ := true
  addSubscription sub := Program.modify (· ++ [sub.spendPublicKey])
  saveSynchronizer _ := []
  loadSynchronizer _ := pure ()
  initTransactionPool _ := id
  totalAmountIn _ _ _ := none
  transactionSoftLockTime := 6
  unsetType := 0
  unsetBM := false

/-- The file of a wallet with one address. -/
def addressFile (spendPublicKey : PublicKey) : List UInt8 :=
  { GreenMembers.new 2 1 [] with
    wallets := [⟨spendPublicKey, spendPublicKey - 1, .null, 0, 0, 1500000000⟩] }.unsafeSave
      plainGreen "password" 7 false false

/-- The addresses of a wallet that was loaded. -/
def addresses : Outcome (GreenMembers (List PublicKey) Nat) Unit → Option (List PublicKey)
  | .done _ w => some (w.wallets.map AddressRecord.spendPublicKey)
  | _ => none

/-- The file of a wallet without addresses. -/
def bareFile : List UInt8 :=
  (GreenMembers.new 2 1 [] : GreenMembers _ Nat).unsafeSave plainGreen "password" 7 false false

end GreenFile

end DarknetCoin
