import DarknetCoin.Model.WalletSender
import DarknetCoin.Theorems.TransferOrder

/-!
# The lookup of a transfer

`getTransfer` asks the three containers one after the other. For a spent output it reads the
iterator of another container, so only the outputs that are in one of the other two are found.
-/

namespace DarknetCoin

open Semantics Program List

namespace Wallet

theorem selectDepositTransfers_cons {cur : Currency} {age now foundMoney : Nat} {w w' : Wallet}
    {id : DepositId} {ids : List DepositId} {selected : List TransactionOutputInformation}
    {result : Nat × List TransactionOutputInformation}
    (h : selectDepositTransfers cur age now (id :: ids) foundMoney selected w = .done result w') :
    ∃ deposit key transfer, w.cache.deposits[id]? = some deposit ∧ w.depositKey deposit = .ok key ∧
      w.container.getTransfer cur age now key = .ok (some (transfer, .available)) ∧
      selectDepositTransfers cur age now ids
        (add64 foundMoney (add64 deposit.amount deposit.interest)) (selected ++ [transfer]) w =
          .done result w' := by
  rw [selectDepositTransfers, get_bind_run] at h
  cases hdeposit : w.cache.deposits[id]? with rw [hdeposit] at h
  | none => cases h
  | some deposit =>
    obtain ⟨key, w₁, hread, hfind⟩ := bind_eq_done.mp h
    obtain ⟨hkey, rfl⟩ := read_eq_done.mp hread
    obtain ⟨transfer?, w₂, hread, hnext⟩ := bind_eq_done.mp hfind
    obtain ⟨hget, rfl⟩ := read_eq_done.mp hread
    split at hnext
    · exact ⟨deposit, key, _, rfl, hkey, hget, hnext⟩
    · cases hnext

end Wallet

namespace TransfersContainer

variable {cur : Currency} {age now : Nat} {c : TransfersContainer} {key : TransactionOutputKey}

/-- The output is in a container, and the state says in which one; an available output is locked as
`isIncluded` has it. -/
def Stores (cur : Currency) (age now : Nat) (c : TransfersContainer) (key : TransactionOutputKey)
    (transfer : TransactionOutputInformation) (state : LookupState) : Prop :=
  (∃ t ∈ c.availableTransfers.toList, t.transactionOutputKey = key ∧
    t.toTransactionOutputInformation = transfer ∧ (t.blockHeight ≠ unconfirmedTransactionHeight →
      state = if transferState cur age now c.currentHeight t.toTransferInformation = .unlocked then
        .available else .locked)) ∨
  (∃ t ∈ c.unconfirmedTransfers.toList, t.transactionOutputKey = key ∧
    t.toTransactionOutputInformation = transfer ∧ state = .unconfirmed) ∨
  ∃ s ∈ c.spentTransfers.toList, s.transactionOutputKey = key ∧
    s.toTransactionOutputInformation = transfer ∧ state = .spent

/-- What is found is stored, and what is not found is not. -/
def Finds (cur : Currency) (age now : Nat) (c : TransfersContainer) (key : TransactionOutputKey) :
    Option (TransactionOutputInformation × LookupState) → Prop
  | some (transfer, state) => c.Stores cur age now key transfer state
  | none => ∀ transfer state, ¬c.Stores cur age now key transfer state

/-- The output is spent, and neither available nor unconfirmed. -/
def OnlySpent (c : TransfersContainer) (key : TransactionOutputKey) : Prop :=
  (∃ s ∈ c.spentTransfers.toList, s.transactionOutputKey = key) ∧
    (∀ t ∈ c.availableTransfers.toList, t.transactionOutputKey ≠ key) ∧
    ∀ t ∈ c.unconfirmedTransfers.toList, t.transactionOutputKey ≠ key

/-- A lookup either finds what is stored, or it is the one of a spent output. -/
theorem getTransfer_cases (cur : Currency) (age now : Nat) (c : TransfersContainer)
    (key : TransactionOutputKey) :
    (¬c.OnlySpent key ∧ ∃ found, c.getTransfer cur age now key = .ok found ∧
        c.Finds cur age now key found) ∨
      c.OnlySpent key ∧ c.getTransfer cur age now key = .error .undefined := by
  unfold getTransfer
  split
  · next t hfind =>
    have ht := mem_of_find?_eq_some hfind
    have hkey : t.transactionOutputKey = key := by simpa using find?_some hfind
    refine .inl ⟨fun hspent => hspent.2.1 t ht hkey, _, rfl,
      .inl ⟨t, ht, hkey, rfl, fun hblock => ?_⟩⟩
    unfold transferState
    cases isSpendTimeUnlocked cur now c.currentHeight t.toTransferInformation with
    | false => simp
    | true => by_cases hage : c.currentHeight < t.blockHeight + age <;> simp [hblock, hage]
  rename_i havail
  split
  · next t hfind =>
    have ht := mem_of_find?_eq_some hfind
    have hkey : t.transactionOutputKey = key := by simpa using find?_some hfind
    exact .inl ⟨fun hspent => hspent.2.2 t ht hkey, _, rfl, .inr (.inl ⟨t, ht, hkey, rfl, rfl⟩)⟩
  rename_i hunconf
  simp only [find?_eq_none, decide_eq_true_eq] at havail hunconf
  split
  · next hspent => exact .inr ⟨⟨by simpa using hspent, havail, hunconf⟩, rfl⟩
  rename_i hspent
  simp only [any_eq_true, decide_eq_true_eq, not_exists, not_and] at hspent
  refine .inl ⟨fun ⟨⟨s, hs, hkey⟩, _⟩ => hspent s hs hkey, none, rfl, ?_⟩
  rintro transfer state (⟨t, ht, hkey, -⟩ | ⟨t, ht, hkey, -⟩ | ⟨s, hs, hkey, -⟩)
  · exact havail t ht hkey
  · exact hunconf t ht hkey
  · exact hspent s hs hkey

/-- The deposits that are selected are available outputs. -/
def SelectsStored (cur : Currency) (age now : Nat) (w : Wallet) :
    List DepositId → List TransactionOutputInformation → Prop :=
  Forall₂ fun id transfer => ∃ deposit key, w.cache.deposits[id]? = some deposit ∧
    w.depositKey deposit = .ok key ∧ w.container.Stores cur age now key transfer .available

theorem selectsStored_selectDepositTransfers {w w' : Wallet} {ids : List DepositId}
    {foundMoney found : Nat} {selected outs : List TransactionOutputInformation}
    (h : Wallet.selectDepositTransfers cur age now ids foundMoney selected w =
      .done (found, outs) w') :
    ∃ picked, outs = selected ++ picked ∧ SelectsStored cur age now w ids picked := by
  induction ids generalizing foundMoney selected with
  | nil =>
    cases h
    exact ⟨[], (append_nil _).symm, .nil⟩
  | cons id ids ih =>
    obtain ⟨deposit, key, transfer, hdeposit, hkey, hget, hnext⟩ :=
      Wallet.selectDepositTransfers_cons h
    obtain ⟨picked, rfl, hpicked⟩ := ih hnext
    rcases getTransfer_cases cur age now w.container key
      with ⟨-, found, hfound, hstores⟩ | ⟨-, herror⟩
    · obtain rfl := Except.ok.inj (hfound.symm.trans hget)
      exact ⟨transfer :: picked, append_assoc ..,
        .cons ⟨deposit, key, hdeposit, hkey, hstores⟩ hpicked⟩
    · cases herror.symm.trans hget

/-- The lookup finds what is stored for all outputs but those that are only among the spent ones;
the deposits that a withdrawal accepts are found where they are. -/
theorem transfer_lookup (cur : Currency) (age now : Nat) (c : TransfersContainer)
    (key : TransactionOutputKey) :
    ((∃ found, c.getTransfer cur age now key = .ok found ∧ c.Finds cur age now key found) ↔
        ¬c.OnlySpent key) ∧
      ∀ w w' ids found outs, Wallet.selectDepositTransfers cur age now ids 0 [] w =
        .done (found, outs) w' → SelectsStored cur age now w ids outs := by
  refine ⟨⟨?_, fun hspent => ?_⟩, fun w w' ids found outs h => ?_⟩
  · rintro ⟨found, hfound, -⟩ hspent
    rcases getTransfer_cases cur age now c key with ⟨hnot, -⟩ | ⟨-, herror⟩
    · exact hnot hspent
    · cases herror.symm.trans hfound
  · rcases getTransfer_cases cur age now c key with ⟨-, hfound⟩ | ⟨honly, -⟩
    · exact hfound
    · exact absurd honly hspent
  · obtain ⟨picked, rfl, hpicked⟩ := selectsStored_selectDepositTransfers h
    exact hpicked

/-- The iterator that is read for a spent output is not the one of the output. -/
theorem spent_transfer_undefined : ∃ c, Run 6 (fun _ _ => True) c ∧
    (∃ transfer, c.Stores .mainnet 6 0 ⟨1, 0⟩ transfer .spent) ∧
    c.getTransfer .mainnet 6 0 ⟨1, 0⟩ = .error .undefined := by
  obtain ⟨c, hrun, havail, hunconf, s, hs, hkey⟩ := @exists_run_of_calls (fun _ _ => True) 6
    sameBlockCalls (fun c => c.availableTransfers.toList = [] ∧
      c.unconfirmedTransfers.toList = [] ∧
      ∃ s ∈ c.spentTransfers.toList, s.transactionOutputKey = ⟨1, 0⟩) _
    (by simp [sameBlockCalls, Saves]) (by decide +kernel)
  refine ⟨c, hrun, ⟨_, .inr (.inr ⟨s, hs, hkey, rfl, rfl⟩)⟩, ?_⟩
  simpa [getTransfer, havail, hunconf] using ⟨s, hs, hkey⟩

end TransfersContainer

end DarknetCoin
