import DarknetCoin.Model.FormatUtils

/-!
# What the binary serialiser wrote is read back

Every reader of the binary serialiser takes off the input exactly what the writer of the same type
has put there, and does not look further.
-/

namespace DarknetCoin

open Data Extra LittleEndian

variable {bits shift temp value : Nat} {rest : List UInt8}

/-- A byte below 128 is the last one. -/
theorem readVarintFrom_last (hvalue : value < 2 ^ (bits - shift)) (hsmall : value < 128)
    (hlast : shift ≠ 0 → value ≠ 0) : readVarintFrom bits shift temp (UInt8.ofNat value :: rest) =
      some (temp + value * 2 ^ shift, rest) := by
  have hbyte : (UInt8.ofNat value).toNat = value := by rw [UInt8.toNat_ofNat']; omega
  rw [readVarintFrom, hbyte, if_neg fun h => absurd hvalue (not_lt.mpr h.2)]
  rw [if_pos hsmall, if_neg fun h => hlast h.2 h.1, Nat.mod_eq_of_lt hsmall]

theorem readVarintFrom_writeVarintFrom {fuel : Nat} (hvalue : value < 2 ^ (bits - shift))
    (hfuel : value < 2 ^ (7 * (fuel + 1))) (hlast : shift ≠ 0 → value ≠ 0) :
    readVarintFrom bits shift temp (writeVarintFrom fuel value ++ rest) =
    some (temp + value * 2 ^ shift, rest) := by
  induction fuel generalizing shift temp value with
  | zero => exact readVarintFrom_last hvalue hfuel hlast
  | succ fuel ih =>
    rw [writeVarintFrom]
    split
    · rename_i hlong
      have hbyte : (UInt8.ofNat (value % 128 + 128)).toNat = value % 128 + 128 := by
        rw [UInt8.toNat_ofNat']
        omega
      have hwidth : 7 < bits - shift := by
        by_contra hle
        have hpow : 2 ^ (bits - shift) ≤ 2 ^ 7 := Nat.pow_le_pow_right (by decide) (by omega)
        omega
      have hvalue' : value / 128 < 2 ^ (bits - (shift + 7)) := by
        have hpow : 2 ^ (bits - shift) = 2 ^ (bits - (shift + 7)) * 128 := by
          rw [← Nat.pow_add _ _ 7]
          congr 1
          omega
        omega
      have hfuel' : value / 128 < 2 ^ (7 * (fuel + 1)) := by
        have hpow : 2 ^ (7 * (fuel + 1 + 1)) = 2 ^ (7 * (fuel + 1)) * 128 := by
          rw [← Nat.pow_add _ _ 7]
          congr 1
        omega
      rw [List.cons_append, readVarintFrom, hbyte, if_neg fun h => by omega]
      rw [if_neg (by omega), ih hvalue' hfuel' (fun _ => by omega)]
      have hmod : (value % 128 + 128) % 128 = value % 128 := by omega
      have hpow : 2 ^ (shift + 7) = 2 ^ shift * 128 := Nat.pow_add _ _ _
      have hsplit : value % 128 * 2 ^ shift + value / 128 * (2 ^ shift * 128) =
          value * 2 ^ shift := by
        calc value % 128 * 2 ^ shift + value / 128 * (2 ^ shift * 128)
            = (value % 128 + 128 * (value / 128)) * 2 ^ shift := by ring
          _ = value * 2 ^ shift := by rw [Nat.mod_add_div]
      rw [hmod, hpow, add_assoc, hsplit]
    · exact readVarintFrom_last hvalue (by omega) hlast

theorem readVarint_writeVarint (hbits : bits ≤ 64) (hvalue : value < 2 ^ bits) (rest : List UInt8) :
    readVarint bits (writeVarint value ++ rest) = some (value, rest) := by
  have hfuel : value < 2 ^ (7 * (9 + 1)) :=
    hvalue.trans_le (Nat.pow_le_pow_right (by decide) (hbits.trans (by decide)))
  have hread : readVarintFrom bits 0 0 (writeVarintFrom 9 value ++ rest) =
      some (0 + value * 2 ^ 0, rest) :=
    readVarintFrom_writeVarintFrom hvalue hfuel fun h => absurd rfl h
  rwa [pow_zero, mul_one, zero_add] at hread

theorem readBytes_append {n : Nat} {bytes : List UInt8} (h : bytes.length = n) (rest : List UInt8) :
    readBytes n (bytes ++ rest) = some (bytes, rest) := by
  rw [readBytes, if_pos (by rw [List.length_append]; omega), List.take_left' h, List.drop_left' h]

theorem digestOfBytes_eq (bytes : List UInt8) :
    digestOfBytes bytes = .ofNat 256 (decode bytes) := by
  induction bytes with
  | nil => rfl
  | cons byte bytes ih =>
    change digestOfBytes bytes <<< 8 ||| BitVec.ofNat 256 byte.toNat =
      BitVec.ofNat 256 (byte.toNat + 256 * decode bytes)
    have hbyte := byte.toNat_lt
    generalize decode bytes = n at ih ⊢
    have hshift : (n % 2 ^ 256) <<< 8 % 2 ^ 256 = (n % 2 ^ 248) <<< 8 := by
      omega
    apply BitVec.eq_of_toNat_eq
    rw [ih, BitVec.toNat_or, BitVec.toNat_shiftLeft, BitVec.toNat_ofNat, BitVec.toNat_ofNat,
      BitVec.toNat_ofNat, hshift, Nat.mod_eq_of_lt (by omega : byte.toNat < 2 ^ 256),
      ← Nat.shiftLeft_add_eq_or_of_lt hbyte]
    omega

theorem digestOfBytes_writeDigest (digest : BitVec 256) : digestOfBytes (writeDigest digest) =
    digest := by
  rw [digestOfBytes_eq, writeDigest, decode_encode (by exact digest.isLt)]
  rw [BitVec.ofNat_toNat, BitVec.setWidth_eq]

theorem readBytes_writeDigest (digest : BitVec 256) (rest : List UInt8) :
    readBytes 32 (writeDigest digest ++ rest) = some (writeDigest digest, rest) :=
  readBytes_append (length_encode _ _) rest

theorem readString_writeString {bytes : List UInt8} (h : bytes.length ≤ maxArraySize)
    (rest : List UInt8) : readString (writeString bytes ++ rest) = some (bytes, rest) := by
  have hsize : bytes.length < 2 ^ 64 := h.trans_lt (by decide)
  rw [readString, writeString, List.append_assoc, readVarint_writeVarint le_rfl hsize]
  exact (if_neg h.not_gt).trans (readBytes_append rfl rest)

theorem readPadding_replicate {size n : Nat} (h : size + n ≤ 255) :
    readPadding size (List.replicate n 0) = some (size + n, []) := by
  induction n generalizing size with
  | zero => exact if_neg (by omega)
  | succ n ih =>
    rw [List.replicate_succ, readPadding, if_neg (by omega), if_pos rfl, ih (by omega),
      Nat.add_right_comm]
    rfl

theorem length_writeVarintFrom (fuel value : Nat) : (writeVarintFrom fuel value).length ≤
    fuel + 1 := by
  induction fuel generalizing value with
  | zero => exact le_rfl
  | succ fuel ih =>
    rw [writeVarintFrom]
    split
    · exact Nat.succ_le_succ (ih _)
    · exact Nat.succ_le_succ (Nat.zero_le _)

namespace TransactionExtraField

variable {field : TransactionExtraField} {fields : List TransactionExtraField}

/-- The values of the field types that are read back. -/
def Fits : TransactionExtraField → Prop
  | padding size => 1 ≤ size ∧ size ≤ 255
  | publicKey _ => True
  | nonce bytes => bytes.length ≤ 255
  | mergeMiningTag depth _ => depth < 2 ^ 64
  | message data => data.length ≤ maxArraySize
  | ttl value => value < 2 ^ 64

/-- A field is written behind its tag and read back; padding only at the end. -/
theorem Fits.readField_write (h : field.Fits) : ∃ c bytes, field.write = some (c :: bytes) ∧ ∀ rest,
      ((∃ size, field = padding size) → rest = []) → readField c (bytes ++ rest) =
      some (some field, rest) := by
  cases field with
  | padding size =>
    obtain ⟨n, rfl⟩ := Nat.exists_eq_add_of_le h.1
    refine ⟨0, List.replicate n 0, ?_, fun rest hend => ?_⟩
    · rw [write, if_neg h.2.not_gt, Nat.add_comm]
      rfl
    · rw [hend ⟨_, rfl⟩, List.append_nil, readField, if_pos rfl, readPadding_replicate h.2]
      rfl
  | publicKey key =>
    refine ⟨_, _, rfl, fun rest _ => ?_⟩
    simp [readField, readBytes_writeDigest, digestOfBytes_writeDigest]
  | nonce bytes =>
    refine ⟨_, _, if_neg (not_lt.mpr h), fun rest _ => ?_⟩
    have hsize : (UInt8.ofNat bytes.length).toNat = bytes.length :=
      UInt8.toNat_ofNat_of_lt' (Nat.lt_succ_of_le h)
    simp [readField, readByte, hsize, readBytes_append]
  | mergeMiningTag depth root =>
    refine ⟨_, _, rfl, fun rest _ => ?_⟩
    have hsize : (writeVarint depth ++ writeDigest root).length ≤ maxArraySize := by
      rw [List.length_append, writeDigest, length_encode]
      exact (Nat.add_le_add_right (length_writeVarintFrom 9 depth) 32).trans (by decide)
    have hroot := readBytes_writeDigest root []
    rw [List.append_nil] at hroot
    simp [readField, readMergeMiningTag, readString_writeString hsize,
      readVarint_writeVarint le_rfl h, hroot, digestOfBytes_writeDigest]
  | message data =>
    refine ⟨_, _, rfl, fun rest _ => ?_⟩
    simp [readField, readString_writeString h]
  | ttl value =>
    refine ⟨_, _, rfl, fun rest _ => ?_⟩
    have hsize : (writeVarint value).length < 2 ^ 8 :=
      (length_writeVarintFrom 9 value).trans_lt (by decide)
    simp [readField, readVarint_writeVarint _ hsize, readVarint_writeVarint le_rfl h]

theorem readFields_write (hfits : ∀ field ∈ fields, field.Fits)
    (hlast : fields.Pairwise fun field _ => ∀ size, field ≠ padding size) :
    ∃ bytes, (∀ extra, writeTransactionExtra extra fields = (true, extra ++ bytes)) ∧
      ∀ fuel, bytes.length ≤ fuel → readFields fuel bytes = (true, fields) := by
  induction fields with
  | nil => exact ⟨[], fun extra => by rw [writeTransactionExtra, List.append_nil],
                                        fun fuel _ => by rw [readFields]⟩
  | cons field fields ih =>
    obtain ⟨hfield, hfields⟩ := List.forall_mem_cons.mp hfits
    obtain ⟨hhead, htail⟩ := List.pairwise_cons.mp hlast
    obtain ⟨rest, hwrite, hread⟩ := ih hfields htail
    obtain ⟨c, bytes, hbytes, hback⟩ := hfield.readField_write
    -- a field behind padding would be read as part of it
    have hend : (∃ size, field = padding size) → rest = [] := by
      rintro ⟨size, rfl⟩
      cases fields with
      | nil => exact (congrArg Prod.snd (hwrite [])).symm
      | cons next fields => exact absurd rfl (hhead next List.mem_cons_self size)
    refine ⟨c :: bytes ++ rest, fun extra => ?_, fun fuel hfuel => ?_⟩
    · rw [writeTransactionExtra, hbytes]
      dsimp only
      rw [hwrite, List.append_assoc]
    · rw [List.cons_append, List.length_cons, List.length_append] at hfuel
      obtain ⟨fuel, rfl⟩ := Nat.exists_eq_add_of_le' (Nat.one_le_of_lt hfuel)
      rw [List.cons_append, readFields, hback rest hend]
      dsimp only
      rw [hread fuel (by omega)]
      rfl

end TransactionExtraField

/-- Fields that are written are read back. Only the last one may be padding, which takes everything
behind it. -/
theorem extra_round_trip {fields : List TransactionExtraField}
    (hfits : ∀ field ∈ fields, field.Fits)
    (hlast : fields.Pairwise fun field _ => ∀ size, field ≠ .padding size) :
    ∃ extra, writeTransactionExtra [] fields = (true, extra) ∧ parseTransactionExtra extra =
    (true, fields) := by
  obtain ⟨extra, hwrite, hread⟩ := TransactionExtraField.readFields_write hfits hlast
  exact ⟨extra, hwrite [], hread _ le_rfl⟩

theorem extra_round_trip_tag : ∃ extra, writeTransactionExtra [] [.mergeMiningTag 3 4, .padding 7] =
    (true, extra) ∧ parseTransactionExtra extra = (true, [.mergeMiningTag 3 4, .padding 7]) :=
  extra_round_trip (by simp [TransactionExtraField.Fits]) (by simp)

/-- No alias that `validate_alias_name` accepts is ever added: the guards on the sizes are the wrong
way round, and their message says so. -/
theorem alias_never_added (tx : Transaction) {alinfo : AliasInfo} (hname : alinfo.aliasName ≠ [])
    (hvalid : validateAliasName alinfo.aliasName = none) :
    addTxExtraAlias tx alinfo = (tx, some "alias is too big size") := by
  have hsize : alinfo.aliasName.length ≤ 255 := by
    unfold validateAliasName at hvalid
    split at hvalid
    · cases hvalid
    · rename_i hle
      exact not_lt.mp hle
  rw [addTxExtraAlias, makeTxExtraAliasEntry, if_neg hname, if_pos hsize]

theorem alias_never_added_letter :
    addTxExtraAlias Currency.genesisTransaction ⟨[97], 1, 2, 0, 0, []⟩ =
      (Currency.genesisTransaction, some "alias is too big size") :=
  alias_never_added _ (List.cons_ne_nil 97 []) (by decide)

theorem valid_alias_fails : (parseTransactionExtra Currency.genesisTransaction.extra).1 = true ∧
    validateAliasName [97] = none ∧
      (addTxExtraAlias Currency.genesisTransaction ⟨[97], 1, 2, 0, 0, []⟩).2 ≠ none := by
  decide +kernel

end DarknetCoin
