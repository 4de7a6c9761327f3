import DarknetCoin.Model.WalletGreenFile
import DarknetCoin.Theorems.DigitDecomposition

/-!
# The cached balances are those of the containers

A balance that is kept is brought up to date when a transaction of its container changes, and at the
heights of the jobs. It is the balance of the container if the jobs predict exactly when outputs
unlock, which they do for outputs without unlock time and term.
-/

namespace DarknetCoin

open GreenBalances TransfersContainer List

/-- What a wallet is told about a transaction. -/
inductive Notification
  | updated (hash : Hash) (blockHeight unlockTime : Nat) (changed : List ContainerPointer)
  | deleted (container : ContainerPointer) (hash : Hash)

/-- The containers change, which the wallet is notified of; or a block was processed. -/
inductive BalanceEvent
  | transactions (containers : Containers) (now : Nat) (notifications : List Notification)
  | progress (containers : Containers) (now processedBlockCount : Nat)

section Definitions

variable (cur : Currency) (age : Nat)

def Notification.run (now : Nat) (containers : Containers) : Notification → GreenBalances →
    GreenBalances
  | updated hash blockHeight unlockTime changed, w =>
    w.transactionUpdated cur age now containers hash blockHeight unlockTime changed
  | deleted container hash, w => w.transactionDeleted cur age now containers container hash

/-- Notifications are handled in order. -/
def Notification.runAll (now : Nat) (containers : Containers) (notifications : List Notification)
    (w : GreenBalances) : GreenBalances :=
  notifications.foldl (fun w notification => notification.run cur age now containers w) w

/-- The containers whose balances a notification is about. -/
def Notification.mentions : Notification → List ContainerPointer
  | updated _ _ _ changed => changed
  | deleted container _ => [container]

namespace BalanceEvent

def containers : BalanceEvent → Containers
  | transactions containers _ _ => containers
  | progress containers _ _ => containers

def now : BalanceEvent → Nat
  | transactions _ now _ => now
  | progress _ now _ => now

def notifications : BalanceEvent → List Notification
  | transactions _ _ notifications => notifications
  | progress _ _ _ => []

def run : BalanceEvent → GreenBalances → GreenBalances
  | transactions containers now notifications, w =>
    Notification.runAll cur age now containers notifications w
  | progress containers now processedBlockCount, w =>
    w.onSynchronizationProgressUpdated cur age now containers processedBlockCount

end BalanceEvent

/-- A transaction of a container that is in a block. -/
def TransfersContainer.Confirmed (c : TransfersContainer) (info : TransactionInformation) : Prop :=
  info ∈ c.transactions.toList ∧ info.blockHeight ≠ unconfirmedTransactionHeight

/-- Two containers with the same contents; their heights may differ. -/
def TransfersContainer.Alike (c c' : TransfersContainer) : Prop :=
  c'.availableTransfers = c.availableTransfers ∧ c'.unconfirmedTransfers = c.unconfirmedTransfers ∧
    c'.transactions = c.transactions

/-- The transaction is reported for the container. -/
def Announced (info : TransactionInformation) (container : ContainerPointer)
    (notifications : List Notification) : Prop :=
  ∃ changed, .updated info.transactionHash info.blockHeight info.unlockTime changed ∈
    notifications ∧ container ∈ changed

/-- The height at which the outputs of a transaction are expected to unlock. -/
def dueAt (info : TransactionInformation) : Nat :=
  unlockHeight age info.blockHeight info.unlockTime

def jobOf (container : ContainerPointer) (info : TransactionInformation) : UnlockTransactionJob :=
  ⟨dueAt age info, container, info.transactionHash⟩

namespace BalanceEvent

/-- Every change of a container is reported, a transaction that is deleted was known, and an output
comes from a transaction of its container. When a block is processed, only heights change. -/
def Consistent (before : Containers) : BalanceEvent → Prop
  | transactions after _ notifications => ∀ container,
    ((before container).Alike (after container) ∨ ∃ notification ∈ notifications,
      container ∈ notification.mentions) ∧ (∀ info ∈ (after container).transactions.toList,
        info ∈ (before container).transactions.toList ∨ Announced info container notifications) ∧
      (∀ hash, .deleted container hash ∈ notifications →
        ∃ info ∈ (before container).transactions.toList, info.transactionHash = hash) ∧
      ∀ t ∈ (after container).availableTransfers.toList, ∃ info, (after container).Confirmed info ∧
        info.blockHeight = t.blockHeight ∧ info.unlockTime = t.unlockTime
  | progress after _ processedBlockCount => ∀ container,
    (before container).Alike (after container) ∧ (after container).currentHeight =
      processedBlockCount - 1

/-- The job of an output is due at a height if and only if the container has unlocked the output. -/
def Predicted (now height : Nat) (t : TransferInformation) : Prop :=
  transferState cur age now height t = .unlocked ↔
    unlockHeight age t.blockHeight t.unlockTime ≤ height

/-- The events the balances can follow: whether an output is unlocked is predicted, no height goes
below one at which a transaction has unlocked, and a deleted transaction is in no container; except
for those reported again. -/
structure Fine (before : Containers) (event : BalanceEvent) : Prop where
  predicted : ∀ container, ∀ t ∈ (event.containers container).availableTransfers.toList,
    Predicted cur age event.now (event.containers container).currentHeight t.toTransferInformation
  higher : ∀ container info, (event.containers container).Confirmed info →
    dueAt age info ≤ (before container).currentHeight →
      dueAt age info ≤ (event.containers container).currentHeight ∨
        Announced info container event.notifications
  deleted : ∀ earlier other hash later, event.notifications =
    earlier ++ .deleted other hash :: later →
    ∀ container info, (event.containers container).Confirmed info → info.transactionHash = hash →
      Announced info container later

/-- A condition holds for every event, with the containers before it. -/
def Along (Holds : Containers → BalanceEvent → Prop) : Containers → List BalanceEvent → Prop
  | _, [] => True
  | before, event :: events => Holds before event ∧ Along Holds event.containers events

def runAll (events : List BalanceEvent) (w : GreenBalances) : GreenBalances :=
  events.foldl (fun w event => event.run cur age w) w

end BalanceEvent

/-- A wallet with some addresses, without transactions. -/
def GreenBalances.new (wallets : List AddressRecord) : GreenBalances where
  wallets := wallets
  actualBalance := 0
  pendingBalance := 0
  unlockTransactions := []
  transactions := []

end Definitions

open BalanceEvent (Consistent Fine Along Predicted)

variable {cur : Currency} {age now : Nat} {containers before : Containers}
  {w w' w'' : GreenBalances}

/-- The balances are those of another height and time at which the same outputs are unlocked. -/
theorem balance_eq_of_alike {c c' : TransfersContainer} {now' : Nat} (halike : c.Alike c')
    (h : ∀ t ∈ c.availableTransfers.toList,
      transferState cur age now c.currentHeight t.toTransferInformation = .unlocked ↔
        transferState cur age now' c'.currentHeight t.toTransferInformation = .unlocked) :
    c'.balance cur age now' 0xff01 = c.balance cur age now 0xff01 ∧
      c'.balance cur age now' 0xff06 = c.balance cur age now 0xff06 := by
  obtain ⟨havail, hunconf, -⟩ := halike
  simp only [balance, getOutputs, havail, hunconf, isIncludedAs_eq]
  constructor
  · congr 2
    apply filter_congr
    exact fun t ht => congrArg (t.visible && ·) (decide_eq_decide.mpr (h t ht).symm)
  · congr 2
    apply filter_congr
    exact fun t ht => congrArg (t.visible && ·) (decide_eq_decide.mpr (not_congr (h t ht).symm))

theorem balance_lt (c : TransfersContainer) (flags : Nat) : c.balance cur age now flags <
    word64 := by
  rw [balance]
  generalize getOutputs cur age now flags c = outputs
  induction outputs using reverseRecOn with
  | nil => decide
  | append_singleton outputs t _ =>
    rw [foldl_concat]
    exact add64_lt _ _

/-- The totals are the sums of the balances of the addresses, and no two addresses share a
container. -/
structure Summed (w : GreenBalances) : Prop where
  distinct : (w.wallets.map (·.container)).Nodup
  words : ∀ wallet ∈ w.wallets, wallet.actualBalance < word64 ∧ wallet.pendingBalance < word64
  actual : w.actualBalance = sum64 (w.wallets.map (·.actualBalance))
  pending : w.pendingBalance = sum64 (w.wallets.map (·.pendingBalance))

theorem adjusted_eq {sum sum' old new : Nat} (hsum : sum' + old = sum + new) (hold : old < word64)
    (hnew : new < word64) : adjusted (sum % word64) old new = sum' % word64 := by
  simp only [adjusted, add64, sub64, word64] at *
  split <;> omega

theorem sum_map_update {wallets : List AddressRecord} {wallet : AddressRecord}
    (hdist : (wallets.map (·.container)).Nodup) (hmem : wallet ∈ wallets) (f : AddressRecord → Nat)
    (change : AddressRecord → AddressRecord) :
    ((wallets.map fun other => if other.container = wallet.container then change other
      else other).map f).sum + f wallet = (wallets.map f).sum + f (change wallet) := by
  induction wallets with
  | nil => exact absurd hmem not_mem_nil
  | cons first wallets ih =>
    rw [map_cons, nodup_cons] at hdist
    simp only [map_cons, sum_cons]
    rcases mem_cons.mp hmem with rfl | hmem
    · have hrest : wallets.map
          (fun other => if other.container = wallet.container then change other else other) =
          wallets := by
        refine (map_congr_left fun other hother => if_neg fun hsame => ?_).trans (map_id' _)
        exact hdist.1 (hsame ▸ mem_map_of_mem hother)
      rw [hrest, if_pos rfl]
      omega
    · have hne : first.container ≠ wallet.container := by
        intro hsame
        exact hdist.1 (hsame ▸ mem_map_of_mem hmem)
      have hrest := ih hdist.2 hmem
      rw [if_neg hne]
      omega

/-- The balances of an address are those of its container. -/
def Current (cur : Currency) (age now : Nat) (containers : Containers) (wallet : AddressRecord) :
    Prop :=
  wallet.actualBalance = (containers wallet.container).balance cur age now 0xff01 ∧
    wallet.pendingBalance = (containers wallet.container).balance cur age now 0xff06

/-- The balances of some containers were brought up to date. -/
structure Refreshed (cur : Currency) (age now : Nat) (containers : Containers)
    (refreshed : List ContainerPointer) (w w' : GreenBalances) : Prop where
  summed : Summed w → Summed w'
  same : w'.wallets.map (·.container) = w.wallets.map (·.container)
  current : ∀ wallet ∈ w'.wallets,
    Current cur age now containers wallet ∨ wallet ∈ w.wallets ∧ wallet.container ∉ refreshed

namespace Refreshed

variable {refreshed more : List ContainerPointer}

theorem of_eq (hwallets : w'.wallets = w.wallets) (hactual : w'.actualBalance = w.actualBalance)
    (hpending : w'.pendingBalance = w.pendingBalance) :
    Refreshed cur age now containers [] w w' where
  summed h := by
    constructor
    · exact hwallets ▸ h.distinct
    · exact hwallets ▸ h.words
    · rw [hactual, hwallets, h.actual]
    · rw [hpending, hwallets, h.pending]
  same := by rw [hwallets]
  current wallet hwallet := .inr ⟨hwallets ▸ hwallet, not_mem_nil⟩

theorem trans (h : Refreshed cur age now containers refreshed w w')
    (h' : Refreshed cur age now containers more w' w'') :
    Refreshed cur age now containers (refreshed ++ more) w w'' where
  summed hw := h'.summed (h.summed hw)
  same := h'.same.trans h.same
  current wallet hwallet := by
    rcases h'.current wallet hwallet with hcur | ⟨hwallet', hmore⟩
    · exact .inl hcur
    · refine (h.current wallet hwallet').imp_right fun ⟨hold, hnot⟩ => ⟨hold, fun hmem => ?_⟩
      exact (mem_append.mp hmem).elim hnot hmore

theorem updateBalance (container : ContainerPointer) (w : GreenBalances) :
    Refreshed cur age now containers [container] w
    (w.updateBalance cur age now containers container) := by
  rw [GreenBalances.updateBalance]
  cases hfind : w.wallets.find? fun wallet => wallet.container = container with
  | none =>
    refine ⟨id, rfl, fun wallet hwallet => .inr ⟨hwallet, fun hmem => ?_⟩⟩
    rw [find?_eq_none] at hfind
    exact hfind wallet hwallet (by simpa using hmem)
  | some wallet =>
    have hmem := mem_of_find?_eq_some hfind
    obtain rfl : wallet.container = container := by simpa using find?_some hfind
    have hcontainers : (fun other : AddressRecord => other.container) ∘ (fun other =>
        if other.container = wallet.container then
          { other with
            actualBalance := (containers wallet.container).balance cur age now 0xff01
            pendingBalance := (containers wallet.container).balance cur age now 0xff06 }
        else other) = fun other => other.container := by
      funext other
      rw [Function.comp_apply]
      split <;> rfl
    refine ⟨fun h => ⟨?_, ?_, ?_, ?_⟩, ?_, ?_⟩
    · rw [map_map, hcontainers]
      exact h.distinct
    · simp only [forall_mem_map]
      intro other hother
      split
      · exact ⟨balance_lt _ _, balance_lt _ _⟩
      · exact h.words other hother
    · rw [h.actual, sum64_eq_mod, sum64_eq_mod]
      exact adjusted_eq (sum_map_update h.distinct hmem _ _) (h.words wallet hmem).1
        (balance_lt _ _)
    · rw [h.pending, sum64_eq_mod, sum64_eq_mod]
      exact adjusted_eq (sum_map_update h.distinct hmem _ _) (h.words wallet hmem).2
        (balance_lt _ _)
    · rw [map_map, hcontainers]
    · simp only [forall_mem_map]
      intro other hother
      split
      next hsame => exact .inl ⟨by rw [← hsame], by rw [← hsame]⟩
      next hne => exact .inr ⟨hother, by simpa using hne⟩

/-- A loop that brings one balance after the other up to date, with other things in between. -/
theorem foldl {α : Type} {f : GreenBalances → α → GreenBalances} {g : α → ContainerPointer}
    (h : ∀ w a, Refreshed cur age now containers [g a] w (f w a)) (as : List α)
    (w : GreenBalances) : Refreshed cur age now containers (as.map g) w (as.foldl f w) := by
  induction as generalizing w with
  | nil => exact of_eq rfl rfl rfl
  | cons a as ih => exact (h w a).trans (ih (f w a))

end Refreshed

theorem updateBalance_keeps (container : ContainerPointer) (w : GreenBalances) :
    (w.updateBalance cur age now containers container).transactions = w.transactions ∧
      (w.updateBalance cur age now containers container).unlockTransactions =
      w.unlockTransactions := by
  rw [updateBalance]
  split <;> exact ⟨rfl, rfl⟩

section Updated

variable {hash : Hash} {blockHeight unlockTime : Nat}

theorem updatedRound_enters (container : ContainerPointer) (w : GreenBalances) :
    let w' := updatedRound cur age now containers hash blockHeight unlockTime w container
    w'.transactions = w.transactions ∧ (∀ job ∈ w.unlockTransactions, job ∈ w'.unlockTransactions) ∧
      (blockHeight ≠ unconfirmedTransactionHeight →
        ⟨unlockHeight age blockHeight unlockTime, container, hash⟩ ∈ w'.unlockTransactions) := by
  obtain ⟨htxs, hjobs⟩ := @updateBalance_keeps cur age now containers container w
  simp only [updatedRound]
  split
  next hunconf =>
    exact ⟨htxs, fun _ hjob => hjobs ▸ hjob, fun hconf => absurd hunconf hconf⟩
  next =>
    exact ⟨htxs, fun _ hjob => (mem_orderedInsert _).mpr (.inr (hjobs ▸ hjob)),
      fun _ => (mem_orderedInsert _).mpr (.inl rfl)⟩

theorem foldl_updatedRound_enters (changed : List ContainerPointer) (w : GreenBalances) :
    let w' := changed.foldl (updatedRound cur age now containers hash blockHeight unlockTime) w
    w'.transactions = w.transactions ∧ (∀ job ∈ w.unlockTransactions, job ∈ w'.unlockTransactions) ∧
      (blockHeight ≠ unconfirmedTransactionHeight → ∀ container ∈ changed,
        ⟨unlockHeight age blockHeight unlockTime, container, hash⟩ ∈ w'.unlockTransactions) := by
  induction changed generalizing w with
  | nil => exact ⟨rfl, fun _ hjob => hjob, fun _ => nofun⟩
  | cons container changed ih =>
    obtain ⟨htxs, hjobs, hnew⟩ :=
      @updatedRound_enters cur age now containers hash blockHeight unlockTime
      container w
    obtain ⟨htransactions', hjobs', hnew'⟩ :=
      ih (updatedRound cur age now containers hash blockHeight unlockTime w
      container)
    refine ⟨htransactions'.trans htxs, fun job hjob => hjobs' job (hjobs job hjob),
      fun hconf other hother => ?_⟩
    rcases mem_cons.mp hother with rfl | hother
    · exact hjobs' _ (hnew hconf)
    · exact hnew' hconf other hother

/-- `transactionUpdated` knows the transaction and enters a job for every container it changed. -/
theorem transactionUpdated_enters {changed : List ContainerPointer} :
    let w' := w.transactionUpdated cur age now containers hash blockHeight unlockTime changed
    (∀ hash', hash' ∈ w.transactions ∨ hash' = hash → hash' ∈ w'.transactions) ∧
      (∀ job ∈ w.unlockTransactions, job ∈ w'.unlockTransactions) ∧
      (blockHeight ≠ unconfirmedTransactionHeight → ∀ container ∈ changed,
        ⟨unlockHeight age blockHeight unlockTime, container, hash⟩ ∈ w'.unlockTransactions) := by
  obtain ⟨htxs, hjobs, hnew⟩ :=
    @foldl_updatedRound_enters cur age now containers hash blockHeight unlockTime
    changed (if hash ∈ w.transactions then w
      else { w with transactions := w.transactions ++ [hash] })
  refine ⟨fun hash' hhash' => htxs.symm ▸ ?_, fun job hjob => hjobs job ?_, hnew⟩
  · split
    next hmem => exact hhash'.elim id fun heq => heq ▸ hmem
    next => simpa using hhash'
  · split <;> exact hjob

end Updated

namespace Notification

variable {notification : Notification}

theorem refreshed_run (hknown : ∀ container hash, notification = .deleted container hash →
      hash ∈ w.transactions) : Refreshed cur age now containers notification.mentions w
    (notification.run cur age now containers w) := by
  cases notification with
  | deleted container hash =>
    rw [run, transactionDeleted, if_pos (hknown container hash rfl)]
    exact (Refreshed.updateBalance container w).trans (.of_eq rfl rfl rfl)
  | updated hash blockHeight unlockTime changed =>
    have hround (w : GreenBalances) (container : ContainerPointer) :
        Refreshed cur age now containers [container] w
        (updatedRound cur age now containers hash blockHeight unlockTime w container) := by
      rw [updatedRound]
      split
      · exact .updateBalance container w
      · exact (Refreshed.updateBalance container w).trans (.of_eq rfl rfl rfl)
    have hlisted : Refreshed cur age now containers [] w
        (if hash ∈ w.transactions then w
            else { w with transactions := w.transactions ++ [hash] }) := by
      split <;> exact .of_eq rfl rfl rfl
    have hloop := hlisted.trans (.foldl hround changed _)
    rw [map_id'] at hloop
    exact hloop

theorem mem_transactions_run {hash : Hash} (h : hash ∈ w.transactions) :
    hash ∈ (notification.run cur age now containers w).transactions := by
  cases notification with
  | updated => exact transactionUpdated_enters.1 hash (.inl h)
  | deleted container deleted =>
    rw [run, transactionDeleted]
    split
    · exact (updateBalance_keeps container w).1 ▸ h
    · exact h

variable {notifications : List Notification}

theorem refreshed_runAll
    (hknown : ∀ container hash, .deleted container hash ∈ notifications → hash ∈ w.transactions) :
    Refreshed cur age now containers (notifications.flatMap mentions) w
      (runAll cur age now containers notifications w) := by
  induction notifications generalizing w with
  | nil => exact .of_eq rfl rfl rfl
  | cons notification notifications ih =>
    apply (refreshed_run fun container hash hsame => hknown container hash (hsame ▸ .head _)).trans
    exact ih fun container hash hdel => mem_transactions_run (hknown container hash (.tail _ hdel))

theorem mem_transactions_runAll {hash : Hash}
    (h : hash ∈ w.transactions ∨ ∃ blockHeight unlockTime changed,
      .updated hash blockHeight unlockTime changed ∈ notifications) :
    hash ∈ (runAll cur age now containers notifications w).transactions := by
  induction notifications generalizing w with
  | nil => exact h.resolve_right (by simp)
  | cons notification notifications ih =>
    apply ih
    rcases h with h | ⟨blockHeight, unlockTime, changed, h⟩
    · exact .inl (mem_transactions_run h)
    rcases mem_cons.mp h with rfl | h
    · exact .inl (transactionUpdated_enters.1 hash (.inr rfl))
    · exact .inr ⟨blockHeight, unlockTime, changed, h⟩

/-- The job of a transaction is in the queue afterwards, if whatever deletes it is followed by a new
report. -/
theorem mem_unlockTransactions_runAll {info : TransactionInformation} {container : ContainerPointer}
    (hconf : info.blockHeight ≠ unconfirmedTransactionHeight)
    (h : jobOf age container info ∈ w.unlockTransactions ∨ Announced info container notifications)
    (hdel : ∀ earlier other later, notifications =
      earlier ++ .deleted other info.transactionHash :: later → Announced info container later) :
    jobOf age container info ∈
    (runAll cur age now containers notifications w).unlockTransactions := by
  induction notifications generalizing w with
  | nil => exact h.resolve_right fun ⟨_, hmem, _⟩ => not_mem_nil hmem
  | cons notification notifications ih =>
    refine ih ?_ fun earlier other later heq =>
      hdel (notification :: earlier) other later (heq ▸ rfl)
    cases notification with
    | updated hash blockHeight unlockTime changed =>
      rcases h with h | ⟨changed', hmem, hchanged⟩
      · exact .inl (transactionUpdated_enters.2.1 _ h)
      rcases mem_cons.mp hmem with heq | hmem
      · cases heq
        exact .inl (transactionUpdated_enters.2.2 hconf container hchanged)
      · exact .inr ⟨changed', hmem, hchanged⟩
    | deleted other hash =>
      by_cases hsame : hash = info.transactionHash
      · exact .inr (hdel [] other notifications (hsame ▸ rfl))
      rcases h with h | ⟨changed, hmem, hchanged⟩
      · left
        show _ ∈ (transactionDeleted cur age now containers other hash w).unlockTransactions
        rw [transactionDeleted]
        split
        · refine mem_filter.mpr ⟨(updateBalance_keeps other w).2 ▸ h, ?_⟩
          exact decide_eq_true (.symm hsame)
        · exact h
      · exact .inr ⟨changed, (mem_cons.mp hmem).resolve_left nofun, hchanged⟩

end Notification

/-- The balances of an address are those of its container at an earlier height; the jobs of the
outputs that were locked then are in the queue. -/
structure Cached (cur : Currency) (age : Nat) (containers : Containers)
    (jobs : List UnlockTransactionJob) (wallet : AddressRecord) (now height : Nat) : Prop where
  current : Current cur age now
    (fun container => { containers container with currentHeight := height }) wallet
  predicted : ∀ t ∈ (containers wallet.container).availableTransfers.toList,
    Predicted cur age now height t.toTransferInformation
  passed : ∀ info, (containers wallet.container).Confirmed info →
    dueAt age info ≤ height → dueAt age info ≤ (containers wallet.container).currentHeight
  entered : ∀ info, (containers wallet.container).Confirmed info →
    dueAt age info ≤ height ∨ jobOf age wallet.container info ∈ jobs

structure Matching (cur : Currency) (age : Nat) (pointers : List ContainerPointer)
    (containers : Containers) (w : GreenBalances) : Prop extends Summed w where
  addresses : w.wallets.map (·.container) = pointers
  known : ∀ container, ∀ info ∈ (containers container).transactions.toList, info.transactionHash ∈
    w.transactions
  sourced : ∀ container, ∀ t ∈ (containers container).availableTransfers.toList,
    ∃ info, (containers container).Confirmed info ∧ info.blockHeight = t.blockHeight ∧
      info.unlockTime = t.unlockTime
  cached : ∀ wallet ∈ w.wallets, ∃ now height,
    Cached cur age containers w.unlockTransactions wallet now height

theorem Refreshed.exists_old {refreshed : List ContainerPointer} {wallet : AddressRecord}
    (h : Refreshed cur age now containers refreshed w w') (hwallet : wallet ∈ w'.wallets) :
    ∃ old ∈ w.wallets, old.container = wallet.container := by
  have hmem : wallet.container ∈ w.wallets.map (·.container) := h.same ▸ mem_map_of_mem hwallet
  exact mem_map.mp hmem

namespace Matching

variable {pointers : List ContainerPointer} {after : Containers}

variable {notifications : List Notification}
  (hconsistent : Consistent before (.transactions after now notifications))
  (hfine : Fine cur age before (.transactions after now notifications))
include hconsistent hfine

/-- After the notifications, a transaction of the container of an address has unlocked, or its job
is in the queue. -/
theorem entered_runAll {old : AddressRecord} {time height : Nat}
    {info : TransactionInformation}
    (hcached : Cached cur age before w.unlockTransactions old time height)
    (hinfo : (after old.container).Confirmed info) :
    dueAt age info ≤ height ∧ dueAt age info ≤ (after old.container).currentHeight ∨
      jobOf age old.container info ∈
      (Notification.runAll cur age now after notifications w).unlockTransactions := by
  have hdel (earlier : List Notification) (other : ContainerPointer) (later : List Notification)
      (heq : notifications = earlier ++ .deleted other info.transactionHash :: later) :
      Announced info old.container later :=
    hfine.deleted earlier other info.transactionHash later heq old.container info hinfo rfl
  have hannounced (h : Announced info old.container notifications) :=
    @Notification.mem_unlockTransactions_runAll cur age now after w notifications info old.container
      hinfo.2 (.inr h) hdel
  rcases (hconsistent old.container).2.1 info hinfo.1 with hbefore | hreported
  · rcases hcached.entered info ⟨hbefore, hinfo.2⟩ with hpassed | hjob
    · have hreached := hcached.passed info ⟨hbefore, hinfo.2⟩ hpassed
      exact (hfine.higher old.container info hinfo hreached).imp
        (fun hstill => ⟨hpassed, hstill⟩) hannounced
    · exact .inr (Notification.mem_unlockTransactions_runAll hinfo.2 (.inl hjob) hdel)
  · exact .inr (hannounced hreported)

theorem transactions (h : Matching cur age pointers before w) :
    Matching cur age pointers after (Notification.runAll cur age now after notifications w) := by
  have hrefreshed : Refreshed cur age now after (notifications.flatMap Notification.mentions) w
      (Notification.runAll cur age now after notifications w) := by
    refine Notification.refreshed_runAll fun container hash hdel => ?_
    obtain ⟨info, hinfo, rfl⟩ := (hconsistent container).2.2.1 hash hdel
    exact h.known container info hinfo
  refine ⟨hrefreshed.summed h.toSummed, hrefreshed.same.trans h.addresses,
    fun container info hinfo => ?_,
    fun container => (hconsistent container).2.2.2, fun wallet hwallet => ?_⟩
  · apply Notification.mem_transactions_runAll
    refine ((hconsistent container).2.1 info hinfo).imp (h.known container info) ?_
    exact fun ⟨changed, hmem, _⟩ => ⟨_, _, changed, hmem⟩
  · rcases hrefreshed.current wallet hwallet with hcur | ⟨hold, hnot⟩
    · obtain ⟨old, hold, hsame⟩ := hrefreshed.exists_old hwallet
      obtain ⟨time, height, hcached⟩ := h.cached old hold
      refine ⟨now, (after wallet.container).currentHeight, hcur, hfine.predicted wallet.container,
        fun _ _ hpassed => hpassed, fun info hinfo => ?_⟩
      rw [← hsame] at hinfo ⊢
      exact (entered_runAll hconsistent hfine hcached hinfo).imp_left And.right
    · -- no notification is about the container of this address, so its contents are as before
      have hsilent : ∀ notification ∈ notifications, wallet.container ∉ notification.mentions :=
        fun notification hmem hmentions => hnot (mem_flatMap.mpr ⟨notification, hmem, hmentions⟩)
      have halike := (hconsistent wallet.container).1.resolve_right
          fun ⟨notification, hmem, hmentions⟩ =>
        hsilent notification hmem hmentions
      obtain ⟨time, height, hcached⟩ := h.cached wallet hold
      obtain ⟨hactual, hpending⟩ := @balance_eq_of_alike cur age time
        { before wallet.container with currentHeight := height }
        { after wallet.container with currentHeight := height } time halike fun _ _ => .rfl
      refine ⟨time, height,
        ⟨hcached.current.1.trans hactual.symm, hcached.current.2.trans hpending.symm⟩,
        halike.1 ▸ hcached.predicted, fun info hinfo hpassed => ?_,
        fun info hinfo => (entered_runAll hconsistent hfine hcached hinfo).imp_left And.left⟩
      have hreached := hcached.passed info ⟨halike.2.2 ▸ hinfo.1, hinfo.2⟩ hpassed
      exact (hfine.higher wallet.container info hinfo hreached).resolve_right
          fun ⟨_, hmem, hchanged⟩ =>
        hsilent _ hmem hchanged

end Matching

theorem unlockBalances_spec (height : Nat) : Refreshed cur age now containers
        ((w.unlockTransactions.filter fun job => job.blockHeight ≤ height).map (·.container)) w
        (w.unlockBalances cur age now containers height) ∧
      (w.unlockBalances cur age now containers height).transactions = w.transactions ∧
      (w.unlockBalances cur age now containers height).unlockTransactions =
        w.unlockTransactions.filter fun job => ¬ job.blockHeight ≤ height := by
  have hkeeps (due : List UnlockTransactionJob) (w : GreenBalances) :
      (due.foldl
        (fun w job => updateBalance cur age now containers job.container w) w).transactions =
          w.transactions ∧
        (due.foldl (fun w job =>
          updateBalance cur age now containers job.container w) w).unlockTransactions =
          w.unlockTransactions := by
    induction due generalizing w with
    | nil => exact ⟨rfl, rfl⟩
    | cons job due ih =>
      obtain ⟨htxs, hjobs⟩ := @updateBalance_keeps cur age now containers job.container w
      exact ⟨(ih _).1.trans htxs, (ih _).2.trans hjobs⟩
  refine ⟨?_, (hkeeps _ w).1, congrArg _ (hkeeps _ w).2⟩
  rw [← append_nil (List.map _ _)]
  exact (Refreshed.foldl (fun w job => Refreshed.updateBalance job.container w) _ w).trans
    (.of_eq rfl rfl rfl)

namespace Matching

variable {pointers : List ContainerPointer} {after : Containers} {processedBlockCount : Nat}

theorem reached {old : AddressRecord} {time height : Nat} {info : TransactionInformation}
    (hfine : Fine cur age before (.progress after now processedBlockCount))
    (hcached : Cached cur age before w.unlockTransactions old time height)
    (halike : (before old.container).Alike (after old.container))
    (hinfo : (before old.container).Confirmed info)
    (hpassed : dueAt age info ≤ height) : dueAt age info ≤ (after old.container).currentHeight := by
  have hbefore := hcached.passed info hinfo hpassed
  refine (hfine.higher old.container info
    ⟨halike.2.2.symm ▸ hinfo.1, hinfo.2⟩ hbefore).resolve_right ?_
  exact fun ⟨_, hmem, _⟩ => not_mem_nil hmem

section

variable (h : Matching cur age pointers before w)
  (hconsistent : Consistent before (.progress after now processedBlockCount))
  (hfine : Fine cur age before (.progress after now processedBlockCount))

include h hconsistent hfine

/-- After a block the balances are those of the containers: an address whose balance is not brought
up to date has no output that has unlocked since. -/
theorem current_of_progress :
    ∀ wallet ∈ (w.onSynchronizationProgressUpdated cur age now after processedBlockCount).wallets,
      Current cur age now after wallet := by
  intro wallet hwallet
  obtain ⟨hrefreshed, -, -⟩ := @unlockBalances_spec cur age now after w (processedBlockCount - 1)
  rcases hrefreshed.current wallet hwallet with hcur | ⟨hold, hnot⟩
  · exact hcur
  obtain ⟨halike, hheight⟩ := hconsistent wallet.container
  obtain ⟨time, height, hcached⟩ := h.cached wallet hold
  have hpassed (info : TransactionInformation) (hinfo : (before wallet.container).Confirmed info) :
      dueAt age info ≤ height ↔ dueAt age info ≤ (after wallet.container).currentHeight := by
    refine ⟨reached hfine hcached halike hinfo,
      fun hdue => (hcached.entered info hinfo).resolve_right fun hjob => ?_⟩
    -- a job in the queue that is due would have brought the balance up to date
    rw [hheight] at hdue
    exact hnot (mem_map_of_mem (mem_filter.mpr ⟨hjob, decide_eq_true hdue⟩))
  have hstate (t : TransactionOutputInformationEx)
      (ht : t ∈ (before wallet.container).availableTransfers.toList) :
      transferState cur age time height t.toTransferInformation = .unlocked ↔
        transferState cur age now (after wallet.container).currentHeight t.toTransferInformation =
            .unlocked := by
    obtain ⟨info, hinfo, hblock, hunlock⟩ := h.sourced wallet.container t ht
    have hsame := hpassed info hinfo
    rw [dueAt, hblock, hunlock] at hsame
    exact (hcached.predicted t ht).trans
      (hsame.trans (hfine.predicted wallet.container t (halike.1.symm ▸ ht)).symm)
  obtain ⟨hactual, hpending⟩ := @balance_eq_of_alike cur age time
    { before wallet.container with currentHeight := height }
      (after wallet.container) now halike hstate
  exact ⟨hcached.current.1.trans hactual.symm, hcached.current.2.trans hpending.symm⟩

theorem progress :
    Matching cur age pointers after
    (w.onSynchronizationProgressUpdated cur age now after processedBlockCount) := by
  obtain ⟨hrefreshed, htxs, hjobs⟩ :=
    @unlockBalances_spec cur age now after w (processedBlockCount - 1)
  refine ⟨hrefreshed.summed h.toSummed, hrefreshed.same.trans h.addresses,
    fun container info hinfo => ?_, fun container t ht => ?_, fun wallet hwallet => ?_⟩
  · refine htxs.symm ▸ h.known container info ?_
    exact (hconsistent container).1.2.2 ▸ hinfo
  · obtain ⟨info, hinfo, hsource⟩ := h.sourced container t ((hconsistent container).1.1 ▸ ht)
    exact ⟨info, ⟨(hconsistent container).1.2.2.symm ▸ hinfo.1, hinfo.2⟩, hsource⟩
  · obtain ⟨old, hold, hsame⟩ := hrefreshed.exists_old hwallet
    obtain ⟨time, height, hcached⟩ := h.cached old hold
    refine ⟨now, (after wallet.container).currentHeight,
      current_of_progress h hconsistent hfine wallet hwallet,
      hfine.predicted wallet.container, fun _ _ hpassed => hpassed, fun info hinfo =>
        or_iff_not_imp_left.mpr ?_⟩
    intro hlocked
    rw [← hsame] at hinfo hlocked ⊢
    obtain ⟨halike, hheight⟩ := hconsistent old.container
    have hbefore : (before old.container).Confirmed info := ⟨halike.2.2 ▸ hinfo.1, hinfo.2⟩
    have hjob := (hcached.entered info hbefore).resolve_left fun hpassed =>
      hlocked (reached hfine hcached halike hbefore hpassed)
    refine hjobs.symm ▸ mem_filter.mpr ⟨hjob, decide_eq_true ?_⟩
    exact hheight ▸ hlocked

end

theorem step {event : BalanceEvent} (h : Matching cur age pointers before w)
    (hconsistent : event.Consistent before) (hfine : event.Fine cur age before) :
    Matching cur age pointers event.containers (event.run cur age w) := by
  cases event with
  | transactions => exact h.transactions hconsistent hfine
  | progress => exact h.progress hconsistent hfine

theorem runAll {events : List BalanceEvent} {last : BalanceEvent}
    (h : Matching cur age pointers before w)
    (hconsistent : Along Consistent before (events ++ [last]))
    (hfine : Along (Fine cur age) before (events ++ [last])) :
    ∃ between, Matching cur age pointers between (BalanceEvent.runAll cur age events w) ∧
    last.Consistent between ∧ last.Fine cur age between := by
  induction events generalizing before w with
  | nil => exact ⟨before, h, hconsistent.1, hfine.1⟩
  | cons event events ih => exact ih (h.step hconsistent.1 hfine.1) hconsistent.2 hfine.2

theorem new {wallets : List AddressRecord} (hdist : (wallets.map (·.container)).Nodup)
    (hzero : ∀ wallet ∈ wallets, wallet.actualBalance = 0 ∧ wallet.pendingBalance = 0) :
    Matching cur age (wallets.map (·.container)) (fun _ => .empty) (new wallets) := by
  have hsum (f : AddressRecord → Nat) (hf : ∀ wallet ∈ wallets, f wallet = 0) :
      0 = sum64 (wallets.map f) := by
    rw [sum64_eq_mod, sum_eq_zero (forall_mem_map.mpr hf)]
    rfl
  refine ⟨⟨hdist, fun wallet hwallet => ?_, hsum _ fun wallet hwallet => (hzero wallet hwallet).1,
    hsum _ fun wallet hwallet => (hzero wallet hwallet).2⟩, rfl, nofun, nofun,
      fun wallet hwallet => ⟨0, 0, ?_⟩⟩
  · rw [(hzero wallet hwallet).1, (hzero wallet hwallet).2]
    decide
  · exact ⟨hzero wallet hwallet, nofun, fun _ hinfo => absurd hinfo.1 not_mem_nil,
      fun _ hinfo => absurd hinfo.1 not_mem_nil⟩

end Matching

/-- After every block of a run, the balances of the addresses are those of their containers, and the
balances of the wallet are the sums. -/
theorem balances_match {wallets : List AddressRecord} {events : List BalanceEvent}
    {after : Containers} {processedBlockCount : Nat} (hdistinct : (wallets.map (·.container)).Nodup)
    (hzero : ∀ wallet ∈ wallets, wallet.actualBalance = 0 ∧ wallet.pendingBalance = 0)
    (hconsistent : Along Consistent (fun _ => .empty)
      (events ++ [.progress after now processedBlockCount]))
    (hfine : Along (Fine cur age) (fun _ => .empty)
      (events ++ [.progress after now processedBlockCount])) :
    let w := BalanceEvent.runAll cur age (events ++ [.progress after now processedBlockCount])
      (.new wallets)
    w.wallets.map (·.container) = wallets.map (·.container) ∧ (∀ wallet ∈ w.wallets,
        wallet.actualBalance = (after wallet.container).balance cur age now 0xff01 ∧
          wallet.pendingBalance = (after wallet.container).balance cur age now 0xff06) ∧
      w.actualBalance =
      sum64 (w.wallets.map fun wallet => (after wallet.container).balance cur age now 0xff01) ∧
      w.pendingBalance = sum64
      (w.wallets.map fun wallet => (after wallet.container).balance cur age now 0xff06) := by
  intro w
  obtain ⟨between, hmatching, hlast, hlastFine⟩ :=
    (Matching.new hdistinct hzero).runAll hconsistent hfine
  have hw : w = (BalanceEvent.runAll cur age events (.new wallets)).onSynchronizationProgressUpdated
      cur age now after processedBlockCount := foldl_concat ..
  have hcur := hmatching.current_of_progress hlast hlastFine
  have hafter := hmatching.progress hlast hlastFine
  rw [← hw] at hcur hafter
  refine ⟨hafter.addresses, hcur, hafter.actual.trans ?_, hafter.pending.trans ?_⟩
  · rw [map_congr_left fun wallet hwallet => (hcur wallet hwallet).1]
  · rw [map_congr_left fun wallet hwallet => (hcur wallet hwallet).2]

def paidInformation (unlockTime : Nat) : TransactionInformation :=
  ⟨1, 2, 10, 4, unlockTime, 5, 5, [], 0, [], 0⟩

def paidOutput (unlockTime : Nat) : TransactionOutputInformationEx :=
  ⟨⟨⟨5, 0, 0, 1, 2, .key 3 4⟩, unlockTime, 10, 0⟩, true⟩

/-- One container has an output of the block at height 10. -/
def paidContainers (unlockTime height : Nat) : Containers := fun container =>
  if container = .subscription 1 then
    { TransfersContainer.empty with
      transactions := .ofList [paidInformation unlockTime]
      availableTransfers := .ofList [paidOutput unlockTime]
      currentHeight := height }
  else { TransfersContainer.empty with currentHeight := height }

/-- The payment is received, and later the block at height 19. -/
def paidRun (unlockTime : Nat) : List BalanceEvent :=
  [.transactions (paidContainers unlockTime 10) 0 [.updated 1 10 unlockTime [.subscription 1]]] ++
    [.progress (paidContainers unlockTime 19) 0 20]

def payee : AddressRecord := ⟨1, 2, .subscription 1, 0, 0, 0⟩

section Paid

variable {unlockTime height : Nat} {container : ContainerPointer}

theorem mem_paidContainers :
    (∀ info ∈ (paidContainers unlockTime height container).transactions.toList,
      container = .subscription 1 ∧ info = paidInformation unlockTime) ∧
    ∀ t ∈ (paidContainers unlockTime height container).availableTransfers.toList,
      container = .subscription 1 ∧ t = paidOutput unlockTime := by
  rw [paidContainers]
  split
  next heq => exact ⟨fun _ h => ⟨heq, mem_singleton.mp h⟩, fun _ h => ⟨heq, mem_singleton.mp h⟩⟩
  next => exact ⟨nofun, nofun⟩

theorem consistent_paidRun : Along Consistent (fun _ => .empty) (paidRun unlockTime) := by
  refine ⟨fun container => ⟨?_, fun info hinfo => ?_, nofun, fun t ht => ?_⟩, fun container =>
    ?_, trivial⟩
  · by_cases h : container = .subscription 1
    · exact .inr ⟨_, .head _, h ▸ .head _⟩
    · rw [paidContainers, if_neg h]
      exact .inl ⟨rfl, rfl, rfl⟩
  · obtain ⟨rfl, rfl⟩ := mem_paidContainers.1 _ hinfo
    exact .inr ⟨_, .head _, .head _⟩
  · obtain ⟨rfl, rfl⟩ := mem_paidContainers.2 _ ht
    exact ⟨paidInformation unlockTime, ⟨.head _, (by decide : 10 ≠ unconfirmedTransactionHeight)⟩,
      rfl, rfl⟩
  · by_cases h : container = .subscription 1
    · subst h
      exact ⟨⟨rfl, rfl, rfl⟩, rfl⟩
    · simp only [BalanceEvent.containers, paidContainers, if_neg h]
      exact ⟨⟨rfl, rfl, rfl⟩, trivial⟩

/-- Without an unlock time the output is unlocked at height 16. -/
theorem fine_paidRun : Along (Fine .mainnet 6) (fun _ => .empty) (paidRun 0) := by
  refine ⟨⟨fun container t ht => ?_, fun container info hinfo hreached => ?_,
    fun earlier other hash later heq => ?_⟩,
    ⟨fun container t ht => ?_, fun container info hinfo _ => .inl ?_,
      fun earlier other hash later heq => ?_⟩, trivial⟩
  · obtain ⟨rfl, rfl⟩ := mem_paidContainers.2 _ ht
    exact (by decide : transferState .mainnet 6 0 10 (paidOutput 0).toTransferInformation =
      .unlocked ↔ unlockHeight 6 10 0 ≤ 10)
  · obtain ⟨rfl, rfl⟩ := mem_paidContainers.1 _ hinfo.1
    exact absurd hreached (by decide)
  · rcases append_eq_singleton_iff.mp heq.symm with ⟨-, h⟩ | ⟨-, h⟩ <;> cases h
  · obtain ⟨rfl, rfl⟩ := mem_paidContainers.2 _ ht
    exact (by decide : transferState .mainnet 6 0 19 (paidOutput 0).toTransferInformation =
      .unlocked ↔ unlockHeight 6 10 0 ≤ 19)
  · obtain ⟨rfl, rfl⟩ := mem_paidContainers.1 _ hinfo.1
    exact (by decide : unlockHeight 6 10 0 ≤ 19)
  · simp [BalanceEvent.notifications] at heq

end Paid

theorem balances_match_paid :
    let w := BalanceEvent.runAll Currency.mainnet 6 (paidRun 0) (.new [payee])
    w.actualBalance = 5 ∧ w.actualBalance = sum64 (w.wallets.map fun wallet =>
      (paidContainers 0 19 wallet.container).balance Currency.mainnet 6 0 0xff01) :=
  ⟨by decide, (balances_match (by decide) (by decide) consistent_paidRun fine_paidRun).2.2.1⟩

/-- The container lets an unlock time of 20 pass at height 19, but the job is due at height 20. -/
theorem balance_late :
    Along Consistent (fun _ => .empty) (paidRun 20) ∧
      (paidContainers 20 19 payee.container).balance Currency.mainnet 6 0 0xff01 = 5 ∧
      (BalanceEvent.runAll Currency.mainnet 6 (paidRun 20) (.new [payee])).wallets =
      [{ payee with pendingBalance := 5 }] :=
  ⟨consistent_paidRun, by decide, by decide⟩

end DarknetCoin
