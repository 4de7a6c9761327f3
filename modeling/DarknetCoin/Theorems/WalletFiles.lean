import DarknetCoin.Model.WalletFile
import DarknetCoin.Theorems.ContainerStorage

/-!
# Files and wallets that are used again
-/

namespace DarknetCoin

open Data LegacyCache List

variable {τ : Type} {ctx : WalletContext τ}

def StoredTransaction.stripped (transaction : StoredTransaction) : StoredTransaction :=
  { transaction with sentTime := 0 }

/-- What is left of a cache in a file. -/
def SavedCache.stripped (saved : SavedCache τ) : SavedCache τ :=
  { saved with
    transactions := saved.transactions.map StoredTransaction.stripped
    transactionsBM := saved.transactionsBM.map StoredTransaction.stripped
    unconfirmedTxs := saved.unconfirmedTxs.map fun entry =>
      ⟨entry.1, { entry.2 with usedOutputs := [] }⟩ }

def PlainWallet.stripped (plain : PlainWallet τ) : PlainWallet τ :=
  { plain with details := plain.details.map SavedCache.stripped }

theorem write_sequence_map {α : Type} {codec : Layout UInt8 α} {f : α → α}
    (hf : ∀ a, codec.write (f a) = codec.write a)
    (elements : List α) : (sequenceCodec codec).write (elements.map f) =
    (sequenceCodec codec).write elements := by
  simp [sequenceCodec, Layout.array, flatMap_map, hf]

/-- What is not stored makes no difference for what is written. -/
theorem SavedCache.write_stripped (saved : SavedCache τ) (bm : Bool) :
    (SavedCache.codec ctx.txCodec bm).write saved.stripped =
    (SavedCache.codec ctx.txCodec bm).write saved := by
  have htxs (bm : Bool) := @write_sequence_map _
    (StoredTransaction.codec bm) StoredTransaction.stripped (fun _ => rfl)
  have hunconf := @write_sequence_map _
    (entryCodec digestCodec (StoredUnconfirmed.codec ctx.txCodec bm))
    (fun entry => ⟨entry.1, { entry.2 with usedOutputs := [] }⟩) (fun _ => rfl)
  cases bm <;> simp only [SavedCache.codec, SavedCache.stripped, Layout.write_field,
    Layout.write_done, htxs, hunconf, if_true, Bool.false_eq_true, if_false]

theorem PlainWallet.write_stripped (plain : PlainWallet τ) (bm detailsBM : Bool) :
    (PlainWallet.codec ctx.txCodec bm detailsBM).write plain.stripped =
      (PlainWallet.codec ctx.txCodec bm detailsBM).write plain := by
  obtain ⟨keys, _ | details, cache⟩ := plain
  · rfl
  · simp [PlainWallet.codec, PlainWallet.stripped, Layout.option, SavedCache.write_stripped]

/-- Reading a file that was written, if the cipher is its own inverse. -/
theorem LegacyWallet.readPlain_serialize {bm : Bool} {unsetVersion : Nat} {password : String}
    {iv : List UInt8} {saveDetailed : Bool} {cache : List UInt8} {w : LegacyWallet τ}
    (hcipher : ∀ data, ctx.chacha8 password iv (ctx.chacha8 password iv data) = data)
    (hiv : iv.length = 8) (hver : bm = false → unsetVersion ≠ walletVersionBM)
    (hsize : (ctx.chacha8 password iv ((PlainWallet.codec ctx.txCodec bm bm).write
      (w.plain bm saveDetailed cache))).length ≤ maxArraySize)
    (hfits : (PlainWallet.codec ctx.txCodec bm bm).Fits (w.plain bm saveDetailed cache).stripped) :
    readPlain ctx password (w.serialize ctx bm unsetVersion password iv saveDetailed cache) =
      some (w.plain bm saveDetailed cache).stripped := by
  have hdetails : (bm || unsetVersion == walletVersionBM) = bm := by
    cases bm with
    | true => rfl
    | false => simp [hver rfl]
  have hfile : EncryptedFile.codec.Fits ⟨if bm then walletVersionBM else 2, iv,
      ctx.chacha8 password iv
          ((PlainWallet.codec ctx.txCodec bm bm).write (w.plain bm saveDetailed cache))⟩ := by
    have hword : maxArraySize < 2 ^ 64 := by decide
    refine ⟨?_, hiv, ⟨⟨hsize.trans_lt hword, hsize⟩, rfl⟩, rfl⟩
    cases bm
    · exact (by decide : 2 < 2 ^ 32)
    · exact (by decide : walletVersionBM < 2 ^ 32)
  have hread := EncryptedFile.codec.read_write _ hfile []
  have hplain := (PlainWallet.codec ctx.txCodec bm bm).read_write _ hfits []
  rw [append_nil] at hread hplain
  rw [PlainWallet.write_stripped] at hplain
  unfold readPlain serialize
  rw [hdetails, hread]
  have hbm : ((if bm then walletVersionBM else 2) == walletVersionBM) = bm := by cases bm <;> rfl
  simp only [Option.bind_eq_bind, Option.bind_some, hbm, hcipher, hplain]
  rfl

/-- Entries that are inserted if their key is new, one after the other. -/
theorem lookup_foldl_insert_new {α β : Type} [DecidableEq α] (entries : List ((_ : α) × β))
    (map : AList fun _ : α => β) (a : α) :
    (entries.foldl
      (fun map entry => if entry.1 ∈ map then map else map.insert entry.1 entry.2) map).lookup a =
      (map.lookup a).or (entries.dlookup a) := by
  induction entries generalizing map with
  | nil => simp
  | cons entry entries ih =>
    rw [foldl_cons, ih]
    by_cases ha : a = entry.1
    · subst ha
      rw [dlookup_cons_eq]
      by_cases hmem : entry.1 ∈ map
      · obtain ⟨b, hb⟩ := Option.isSome_iff_exists.mp (AList.lookup_isSome.mpr hmem)
        rw [if_pos hmem, hb]
        rfl
      · rw [if_neg hmem, AList.lookup_insert, AList.lookup_eq_none.mpr hmem]
        rfl
    · have hentries : (entry :: entries).dlookup a = entries.dlookup a := dlookup_cons_ne _ _ ha
      rw [hentries]
      split
      · rfl
      · rw [AList.lookup_insert_ne ha]

theorem lookup_foldl_entries {α β : Type} [DecidableEq α] (map : AList fun _ : α => β) (a : α) :
    (map.entries.foldl (fun map entry => if entry.1 ∈ map then map else map.insert entry.1 entry.2)
      (∅ : AList fun _ : α => β)).lookup a = map.lookup a := by
  rw [lookup_foldl_insert_new, AList.lookup_empty]
  rfl

namespace LegacyWallet

/-- A cipher that is its own inverse, and keys that match. -/
def plainContext : WalletContext Nat :=
  ⟨word64Codec, fun _ _ data => data.map (· ^^^ 90), fun _ _ => true, fun _ => true,
    fun _ => none, 86400⟩

theorem plainContext_chacha8 (password : String) (iv data : List UInt8) :
    plainContext.chacha8 password iv (plainContext.chacha8 password iv data) = data := by
  simp [plainContext, Function.comp_def, UInt8.xor_assoc]

/-- A wallet with one payment, which was sent at a time and uses an output. -/
def onePayment (sentTime : Nat) : LegacyWallet Nat where
  account := ⟨KeysStorage.null.keys, [⟨⟨⟨1, 2⟩, 3, 4, 0⟩, "group_0"⟩], 1500000000⟩
  cache := { (LegacyCache.empty : LegacyCache Nat) with
    transactions :=
      [⟨⟨none, 0, -10, 1, 7, .active⟩, none, 0, false, unconfirmedTransactionHeight, 0, 0,
        "", [], 5, 0⟩]
    unconfirmedTxs := AList.singleton 7 ⟨⟨10, 20, sentTime, 0, [⟨8, 0⟩]⟩, 9, 0⟩ }

theorem fits_onePayment : (PlainWallet.codec plainContext.txCodec true true).Fits
    ((onePayment 1500000100).plain true true [1]).stripped := by
  have hempty {α : Type} (codec : Layout UInt8 α) : (sequenceCodec codec).Fits [] :=
    fits_sequenceCodec ⟨Nat.zero_le _, fun _ h => absurd h not_mem_nil⟩
  have hword {n : Nat} (h : n < 2 ^ 32) : word64Codec.Fits n := h.trans (by decide)
  have hstring {value : String} (hlen : value.toList.length < 2 ^ 8)
      (hback : String.ofList ((value.toList.map
      fun char => UInt8.ofNat char.toNat).map fun byte => .ofNat byte.toNat) = value) :
          stringCodec.Fits value := by
    have hbytes : (value.toList.map fun char => UInt8.ofNat char.toNat).length < 2 ^ 8 := by
      rwa [length_map]
    exact ⟨⟨⟨hbytes.trans (by decide), hbytes.le.trans (by decide)⟩, rfl⟩, hback⟩
  have hflag (flag : Bool) : boolCodec.Fits flag := by cases flag <;> exact ⟨rfl, rfl⟩
  have hinvalid : idCodec.Fits none := ⟨(by decide : word64 - 1 < 2 ^ 64), rfl⟩
  have htxs : (StoredTransaction.codec true).Fits
      ⟨⟨none, 0, -10, 1, 7, .active⟩, none, 0, false, unconfirmedTransactionHeight, 0, 0, "",
        [], 0, 0⟩ :=
    ⟨hinvalid, hword (by decide), hinvalid, hword (by decide),
      ⟨(by decide : word64 - 10 < 2 ^ 64), rfl⟩, hword (by decide), fits_digestCodec 7, hflag _,
        (by decide : unconfirmedTransactionHeight < 2 ^ 32),
      hword (by decide), hword (by decide), hstring (by decide) rfl,
        ⟨⟨(by decide : 0 < 2 ^ 8), by decide⟩, rfl⟩,
      hempty _, (by decide : 0 < 2 ^ 8), rfl⟩
  have hunconf : (entryCodec digestCodec (StoredUnconfirmed.codec word64Codec true)).Fits
      ⟨7, ⟨⟨10, 20, 1500000100, 0, []⟩, 9, 0⟩⟩ :=
    ⟨fits_digestCodec 7, ⟨hword (by decide), hword (by decide), hword (by decide),
      hword (by decide), hword (by decide), (by decide : 0 < 2 ^ 8), rfl⟩, rfl⟩
  have hkeys : (KeysStorage.codec true).Fits ⟨1500000000, ⟨⟨⟨1, 2⟩, 3, 4, 0⟩, "group_0"⟩⟩ :=
    ⟨hword (by decide), fits_digestCodec 1, fits_digestCodec 3, fits_digestCodec 2,
      fits_digestCodec 4, (by decide : 0 < 2 ^ 8), hstring (by decide) rfl, rfl⟩
  exact ⟨⟨⟨hword (by decide), by decide⟩, forall_mem_singleton.mpr hkeys⟩,
    ⟨hflag true, fits_sequenceCodec ⟨by decide,
    forall_mem_singleton.mpr htxs⟩, hempty _, hempty _, fits_sequenceCodec ⟨by decide,
    forall_mem_singleton.mpr hunconf⟩, hempty _, hempty _, hempty _, rfl⟩,
    ⟨⟨hword (by decide), by decide⟩, rfl⟩, rfl⟩

/-- The file of a wallet without details. -/
def keysFile : List UInt8 :=
  (onePayment 1500000100).serialize plainContext true 3 "password" [1, 2, 3, 4, 5, 6, 7, 8] false []

theorem readPlain_keysFile : readPlain plainContext "password" keysFile =
    some ((onePayment 1500000100).plain true false []).stripped := by
  apply readPlain_serialize (plainContext_chacha8 _ _) rfl (fun h => absurd h (by decide))
    (by decide +kernel)
  exact ⟨fits_onePayment.1, ⟨rfl, rfl⟩, ⟨⟨(by decide : 0 < 2 ^ 64), Nat.zero_le _⟩, rfl⟩, rfl⟩

end LegacyWallet

end DarknetCoin
