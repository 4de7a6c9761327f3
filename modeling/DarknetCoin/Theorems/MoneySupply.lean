import DarknetCoin.Theorems.Accounts
import DarknetCoin.Theorems.DoubleSpend

/-!
# Money in circulation

From height two on a block changes the money in circulation by its emission and its interest, as
long as the sums fit in words. Interest is added without a look at the supply, and the first two
miner transactions are not compared with the reward, so the cap holds for chains where these leave
room.
-/

namespace DarknetCoin

open Semantics Data DarknetCoin.Core List Accounted

variable {cur : Currency} {crypto : Crypto} {below : List BlockEntry} {block : BlockEntry}

/-- The fees of a block and its emission fit in a word. -/
def FeesFit (cur : Currency) (below : List BlockEntry) (block : BlockEntry) : Prop :=
  block.fees cur + emissionOf cur below block.blockCumulativeSize < word64

/-- The coins generated with a block fit in a word. -/
def CoinsFit (cur : Currency) (below : List BlockEntry) (block : BlockEntry) : Prop :=
  coinsOf below + emissionOf cur below block.blockCumulativeSize + block.interest cur < word64

/-- The accounts of a block are what they are in unbounded arithmetic. -/
structure ExactAccounts (cur : Currency) (below : List BlockEntry) (block : BlockEntry) : Prop where
  amounts : ∀ tx ∈ block.others, ExactAmounts cur tx
  minerOutputs : getOutsMoneyAmount block.bl.baseTransaction =
    block.bl.baseTransaction.outputsAmount
  fees : (block.totals cur).feeSummary = block.fees cur
  interest : (block.totals cur).interestSummary = block.interest cur
  reward : 1 < below.length → block.bl.baseTransaction.outputsAmount =
    emissionOf cur below block.blockCumulativeSize + block.fees cur
  coins : block.alreadyGeneratedCoins =
    coinsOf below + emissionOf cur below block.blockCumulativeSize + block.interest cur

theorem Accounted.exactAccounts (h : Accounted cur crypto below block)
    (hrate : cur.depositMaxTotalRate ≤ 22) (hterms : DepositTerms cur block)
    (hfees : FeesFit cur below block) (hcoins : CoinsFit cur below block) :
    ExactAccounts cur below block := by
  unfold FeesFit at hfees
  unfold CoinsFit at hcoins
  have hexact := h.exact hrate hterms
  have hfee := feeSummary_eq hexact (by omega)
  have hinterest := interestSummary_eq hexact (by omega)
  have hminer := getOutsMoneyAmount_eq h.minerWords.outputs h.minerOverflow
  refine ⟨hexact, hminer, hfee, hinterest, fun hheight => ?_, ?_⟩
  · rw [← hminer, h.reward hheight, hfee, add64_of_lt (by omega)]
  · rw [h.coins, hinterest, add64_of_lt (b := emissionOf _ _ _) (by omega), add64_of_lt (by omega)]

theorem ExactAccounts.minted_eq (h : ExactAccounts cur below block)
    (haccounted : Accounted cur crypto below block) (hheight : 1 < below.length) :
    block.minted = (block.alreadyGeneratedCoins : Int) - coinsOf below := by
  have hminted := haccounted.minted_eq h.amounts
  have hreward := h.reward hheight
  have hcoins := h.coins
  omega

theorem coinsOf_concat (blocks : List BlockEntry) : coinsOf (blocks ++ [block]) =
    block.alreadyGeneratedCoins := by
  simp [coinsOf]

/-- Along a chain, what the blocks above the first ones mint is what the generated coins grow by. -/
theorem sum_minted_eq_coins {blocks first : List BlockEntry}
    (haccounted : Grown (Accounted cur crypto) (first ++ blocks)) (hfirst : 2 ≤ first.length)
    (hexact : ∀ below block above, first ++ blocks = below ++ block :: above →
      first.length ≤ below.length → ExactAccounts cur below block) :
    (blocks.map BlockEntry.minted).sum = (coinsOf (first ++ blocks) : Int) - coinsOf first := by
  -- blocks are added at the end, so the induction goes from there
  induction blocks using reverseRecOn with
  | nil => simp
  | append_singleton blocks block ih =>
    rw [← append_assoc] at haccounted hexact ⊢
    have hprev := ih haccounted.left fun below b above heq hlen =>
      hexact below b (above ++ [block]) (by rw [heq]; simp) hlen
    have hlast := hexact (first ++ blocks) block [] rfl (by simp)
    have hminted := hlast.minted_eq haccounted.last (by
      rw [length_append]
      omega)
    rw [map_append, sum_append, coinsOf_concat]
    simp only [map_cons, map_nil, sum_cons, sum_nil]
    omega

/-- `already_generated_coins` of the block at a height. -/
def coinsAt (blocks : List BlockEntry) (height : Nat) : Nat := coinsOf (blocks.take (height + 1))

/-- From height two on, the blocks of a chain mint what `already_generated_coins` grows by, and
the sums over their transactions are exact. -/
theorem money_conserved_of_run {net : Network} {clock : Nat} {core : Core}
    (hrun : Run net WordCalls clock core) (hrate : net.cur.depositMaxTotalRate ≤ 22)
    (hterms : ∀ block ∈ core.main.blocks, Accounted.DepositTerms net.cur block) {height : Nat}
    (hlow : 2 ≤ height) (hhigh : height < core.main.blocks.length)
    (hfits : ∀ k block, 2 ≤ k → k ≤ height → core.main.blocks[k]? = some block →
      FeesFit net.cur (core.main.blocks.take k) block ∧
      CoinsFit net.cur (core.main.blocks.take k) block) :
    (((core.main.blocks.take (height + 1)).drop 2).map BlockEntry.minted).sum =
        (coinsAt core.main.blocks height : Int) - coinsAt core.main.blocks 1 ∧
      ∀ k block, 2 ≤ k → k ≤ height → core.main.blocks[k]? = some block →
        ExactAccounts net.cur (core.main.blocks.take k) block := by
  have haccounted := accounted_of_run hrun
  have hexact : ∀ k block, 2 ≤ k → k ≤ height → core.main.blocks[k]? = some block →
      ExactAccounts net.cur (core.main.blocks.take k) block := by
    intro k block hk hle hblock
    obtain ⟨hfees, hcoins⟩ := hfits k block hk hle hblock
    exact (haccounted.getElem? hblock).exactAccounts hrate (hterms block (mem_of_getElem? hblock))
      hfees hcoins
  refine ⟨?_, hexact⟩
  have hsplit : core.main.blocks.take 2 ++ (core.main.blocks.take (height + 1)).drop 2 =
      core.main.blocks.take (height + 1) := by
    rw [← take_append_drop 2 (core.main.blocks.take (height + 1)), take_take,
      Nat.min_eq_left (by omega), drop_left' (by rw [length_take]; omega)]
  have hchain : Grown (Accounted net.cur net.crypto)
      (core.main.blocks.take (height + 1) ++ core.main.blocks.drop (height + 1)) := by
    rw [take_append_drop]
    exact haccounted
  have hsum := @sum_minted_eq_coins net.cur net.crypto
    ((core.main.blocks.take (height + 1)).drop 2) (core.main.blocks.take 2)
    (by rw [hsplit]; exact hchain.left) (by rw [length_take]; omega) ?_
  · rw [hsum, hsplit]
    rfl
  intro below block above heq hlen
  -- a block of that part of the chain stands at the height of the number of blocks below it
  rw [hsplit] at heq
  have hwhole : core.main.blocks =
      below ++ block :: (above ++ core.main.blocks.drop (height + 1)) := by
    rw [← cons_append, ← append_assoc, ← heq, take_append_drop]
  have hblock : core.main.blocks[below.length]? = some block := by
    rw [hwhole, getElem?_append_right le_rfl, Nat.sub_self, getElem?_cons_zero]
  have hbelow : core.main.blocks.take below.length = below := by
    rw [hwhole, take_left]
  have hlength : below.length + 1 + above.length = height + 1 := by
    have := congrArg length heq
    rw [length_take, length_append, length_cons] at this
    omega
  have hres := hexact below.length block (by rw [length_take] at hlen; omega) (by omega) hblock
  rw [hbelow] at hres
  exact hres

/-- The deposits among the inputs of a transaction. -/
def Transaction.deposits (tx : Transaction) : List MultisignatureInput :=
  tx.inputs.filterMap fun input =>
    match input with
    | .multisignature input => if input.term = 0 then none else some input
    | _ => none

theorem depositTerms_of_deposits_eq_nil (h : ∀ tx ∈ block.others, tx.deposits = []) :
    DepositTerms cur block := by
  intro tx htx input hmem hterm
  have hdeposit : input ∈ tx.deposits := by
    rw [Transaction.deposits, mem_filterMap]
    exact ⟨.multisignature input, hmem, if_neg hterm⟩
  rw [h tx htx] at hdeposit
  cases hdeposit

instance : Decidable (FeesFit cur below block) := inferInstanceAs (Decidable (_ < _))

instance : Decidable (CoinsFit cur below block) := inferInstanceAs (Decidable (_ < _))

/-- Three blocks without deposits, the last of which has fees and coins that fit. -/
def ThreeModestBlocks (cur : Currency) (blocks : List BlockEntry) : Prop :=
  blocks.length = 3 ∧ (∀ block ∈ blocks, ∀ tx ∈ block.others, tx.deposits = []) ∧
      (blocks[2]?).all (fun block =>
      FeesFit cur (blocks.take 2) block && CoinsFit cur (blocks.take 2) block) = true

instance (blocks : List BlockEntry) : Decidable (ThreeModestBlocks cur blocks) := by
  unfold ThreeModestBlocks
  infer_instance

theorem wordCalls_spending : ∀ entry ∈ spendingCalls, ∀ clock core,
    WordCalls clock entry.1 core entry.2 := by
  intro entry hentry clock core
  simp only [spendingCalls, mem_cons, not_mem_nil, or_false] at hentry
  rcases hentry with rfl | rfl | rfl
  all_goals
    refine ⟨?_, ?_⟩
    · intro input hinput
      rw [mem_singleton.mp hinput]
      decide
    · intro out hout
      rw [mem_singleton.mp hout]
      decide

theorem exists_run_spending (P : List BlockEntry → Prop) [DecidablePred P]
    (h : (performAll openNetwork spendingCalls (onGenesis openNetwork)).any
      (fun core => decide (P core.main.blocks)) = true) :
    ∃ clock core, Run openNetwork WordCalls clock core ∧ P core.main.blocks :=
  exists_run_of_performAll spendingCalls (fun core => P core.main.blocks) wordCalls_spending
    (.start (onGenesis_initial_of (by decide +kernel))) h

theorem money_conserved_of_run_spending :
    ∃ core : Core, core.main.blocks.length = 3 ∧
    (((core.main.blocks.take 3).drop 2).map BlockEntry.minted).sum =
        (coinsAt core.main.blocks 2 : Int) - coinsAt core.main.blocks 1 := by
  obtain ⟨clock, core, hrun, hlen, hdeposits, hfits⟩ :=
    exists_run_spending (ThreeModestBlocks openNetwork.cur) (by decide +kernel)
  refine ⟨core, hlen, ?_⟩
  have hconserved := @money_conserved_of_run openNetwork clock core hrun (by decide)
    (fun block hblock => depositTerms_of_deposits_eq_nil (hdeposits block hblock)) 2 le_rfl
    (by omega) ?_
  · exact hconserved.1
  intro k block hlow hhigh hblock
  obtain rfl : k = 2 := by omega
  rw [hblock] at hfits
  simpa using hfits

/-- A network whose supply is the greatest word, and on which miner outputs can be spent at once. -/
def richNetwork : Network :=
  ⟨{ Currency.mainnet with moneySupply := 2 ^ 64 - 1, lockedTxAllowedDeltaBlocks := 100 },
    Crypto.numbered, []⟩

/-- The supply, less the amount of the genesis block and one unit. -/
def fortune : Nat := 2 ^ 64 - 2 - Currency.coin

/-- A transaction that leaves all of it to the miner. -/
def fortuneTransaction : Transaction where
  version := 1
  unlockTime := 0
  inputs := [.key ⟨fortune, [0], 7⟩]
  outputs := []
  extra := [200]
  signatures := [[0]]

/-- The first block pays out the supply, the second one collects it as a fee. -/
def richCalls : List (Nat × Call) :=
  [(10000, .addNewBlock (numberedBlock 1 420 1 [⟨fortune, .key 1⟩] [])),
    (10000, .handleIncomingTransaction fortuneTransaction true),
    (10000, .addNewBlock (numberedBlock 2 1 2 [⟨199 * Currency.coin - 2, .key 1⟩] [201]))]

/-- Three blocks without deposits, the first two of which pay out no more than the supply, while
the third one mints another amount than the generated coins grow by. -/
def LosesMoney (cur : Currency) (blocks : List BlockEntry) : Prop :=
  blocks.length = 3 ∧ (∀ block ∈ blocks, ∀ tx ∈ block.others, tx.deposits = []) ∧
    (((blocks.take 2).flatMap BlockEntry.transactions).map
      fun entry => entry.tx.outputsAmount).sum ≤ cur.moneySupply ∧
    (((blocks.take 3).drop 2).map BlockEntry.minted).sum ≠
      (coinsAt blocks 2 : Int) - coinsAt blocks 1

instance (blocks : List BlockEntry) : Decidable (LosesMoney cur blocks) := by
  unfold LosesMoney
  infer_instance

/-- The reward and the fees of a block together do not fit in a word; the block that pays what is
left of the sum is accepted, and the money of the transaction is gone. -/
theorem reward_wraps :
    ∃ clock core, Run richNetwork (fun _ _ _ _ => True) clock core ∧
      (∀ block ∈ core.main.blocks, Accounted.DepositTerms richNetwork.cur block) ∧
      (((core.main.blocks.take 2).flatMap BlockEntry.transactions).map
        fun entry => entry.tx.outputsAmount).sum ≤ richNetwork.cur.moneySupply ∧
      2 < core.main.blocks.length ∧
      (((core.main.blocks.take 3).drop 2).map BlockEntry.minted).sum ≠
        (coinsAt core.main.blocks 2 : Int) - coinsAt core.main.blocks 1 := by
  obtain ⟨clock, core, hrun, hlen, hdeposits, hpaid, hlost⟩ :=
    exists_run_of_genesis richNetwork richCalls
      (fun core => LosesMoney richNetwork.cur core.main.blocks)
      (onGenesis_initial_of (by decide +kernel)) (by decide +kernel)
  exact ⟨clock, core, hrun,
    fun block hblock => depositTerms_of_deposits_eq_nil (hdeposits block hblock), hpaid, by omega,
    hlost⟩

section Penalty

variable {amount median size size' : Nat}

/-- The high and the low word that `getPenalizedAmount` computes for a block above the median. -/
def penalizedWords (amount medianSize currentBlockSize : Nat) : Nat × Nat :=
  let (productLo, productHi) :=
    mul128 amount (mul64 currentBlockSize (sub64 (mul64 2 medianSize) currentBlockSize))
  let (hi, lo) := div128By32 productHi productLo (medianSize % word32)
  div128By32 hi lo (medianSize % word32)

/-- Above the median, the factor of the penalty falls. -/
private theorem penalty_factor_lt (hlow : median ≤ size) (hlt : size < size')
    (hhigh : size' ≤ 2 * median) : size' * (2 * median - size') < size * (2 * median - size) := by
  obtain ⟨excess, rfl⟩ := Nat.exists_eq_add_of_lt hlt
  -- both have the product of the smaller size and the smaller difference
  rw [show 2 * median - size = 2 * median - (size + excess + 1) + (excess + 1) by
    omega, mul_add, add_assoc,
    add_mul, mul_comm (excess + 1)]
  exact Nat.add_lt_add_left (Nat.mul_lt_mul_of_pos_right (by omega) (Nat.succ_pos _)) _

section Over

variable (hover : median < size) (hsize : size ≤ 2 * median)
include hover hsize

private theorem penalty_factor_lt_square : size * (2 * median - size) < median * median := by
  have hfactor := penalty_factor_lt le_rfl hover hsize
  rwa [show 2 * median - median = median by omega] at hfactor

private theorem penalty_le : amount * (size * (2 * median - size)) / (median * median) ≤
    amount := by
  apply Nat.div_le_of_le_mul
  rw [mul_comm (median * median)]
  exact Nat.mul_le_mul_left amount (penalty_factor_lt_square hover hsize).le

theorem penalizedWords_eq (hamt : amount < word64) (hmedian : median < word32) :
    penalizedWords amount median size =
    (0, amount * (size * (2 * median - size)) / (median * median)) := by
  have hsquare : median * median < word64 := by
    calc median * median < word32 * word32 := Nat.mul_lt_mul'' hmedian hmedian
      _ = word64 := rfl
  have hfactor := (penalty_factor_lt_square hover hsize).trans hsquare
  have hpos : 0 < median := by omega
  have hword : 2 * median < word64 := by
    rw [word32] at hmedian
    rw [word64]
    omega
  -- neither the factor nor the two quotients leave their words
  simp only [penalizedWords, mul64_of_lt hword, sub64_of_le hsize hword, mul64_of_lt hfactor,
    Nat.mod_eq_of_lt hmedian]
  have hproduct : amount * (size * (2 * median - size)) < word64 * word64 :=
    Nat.mul_lt_mul'' hamt hfactor
  have hquotient : amount * (size * (2 * median - size)) / median < word64 * word64 :=
    lt_of_le_of_lt (Nat.div_le_self _ _) hproduct
  rw [mul128_eq hamt hfactor]
  rw [div128By32_eq (Nat.div_lt_of_lt_mul hproduct) (Nat.mod_lt _ (by decide)) hpos,
    Nat.div_add_mod']
  rw [div128By32_eq (Nat.div_lt_of_lt_mul hquotient) (Nat.mod_lt _ (by decide)) hpos,
    Nat.div_add_mod', Nat.div_div_eq_div_mul _ median median]
  have hfits : amount * (size * (2 * median - size)) / (median * median) < word64 :=
    (penalty_le hover hsize).trans_lt hamt
  rw [Nat.div_eq_of_lt hfits, Nat.mod_eq_of_lt hfits]

end Over

variable (hamt : amount < word64) (hmedian : median < word32)
include hamt hmedian

theorem getPenalizedAmount_eq (hsize : size ≤ 2 * median) :
    Currency.getPenalizedAmount amount median size =
    if size ≤ median then amount
    else amount * (size * (2 * median - size)) / (median * median) := by
  unfold Currency.getPenalizedAmount
  split
  · next hzero => simp [hzero]
  split
  · rfl
  · next hover => exact congrArg Prod.snd (penalizedWords_eq (not_le.mp hover) hsize hamt hmedian)

theorem getPenalizedAmount_le (hsize : size ≤ mul64 2 median) :
    Currency.getPenalizedAmount amount median size ≤ amount := by
  rw [mul64_of_lt (by rw [word32] at hmedian; rw [word64]; omega)] at hsize
  rw [getPenalizedAmount_eq hamt hmedian hsize]
  split
  · exact le_rfl
  · next hover => exact penalty_le (not_le.mp hover) hsize

/-- The reduced reward of a large block is the product rounded down, with no high word; it falls
with the size of the block and grows with the reward. -/
theorem penalty_exact (hsize : size ≤ 2 * median) :
    Currency.getPenalizedAmount amount median size =
        (if size ≤ median then amount else amount * size * (2 * median - size) / median ^ 2) ∧
      (0 < amount → median < size → (penalizedWords amount median size).1 = 0 ∧
        (penalizedWords amount median size).2 < amount) ∧
      AntitoneOn (Currency.getPenalizedAmount amount median) (Set.Iic (2 * median)) ∧
      MonotoneOn (Currency.getPenalizedAmount · median size) (Set.Iio word64) := by
  refine ⟨?_, fun hpos hover => ?_, fun size hsize size' hsize' hle => ?_,
    fun amount hamt amount' hamt' hle => ?_⟩
  · rw [getPenalizedAmount_eq hamt hmedian hsize, pow_two, mul_assoc]
  · rw [penalizedWords_eq hover hsize hamt hmedian]
    refine ⟨rfl, Nat.div_lt_of_lt_mul ?_⟩
    rw [mul_comm]
    exact Nat.mul_lt_mul_of_pos_right (penalty_factor_lt_square hover hsize) hpos
  · rw [getPenalizedAmount_eq hamt hmedian hsize, getPenalizedAmount_eq hamt hmedian hsize']
    split
    · next hmid' => rw [if_pos (hle.trans hmid')]
    rename_i hover'
    split
    · exact penalty_le (not_le.mp hover') hsize'
    rename_i hover
    obtain rfl | hlt := hle.eq_or_lt
    · exact le_rfl
    apply Nat.div_le_div_right
    exact Nat.mul_le_mul_left amount (penalty_factor_lt (not_le.mp hover).le hlt hsize').le
  · dsimp only
    rw [getPenalizedAmount_eq hamt hmedian hsize, getPenalizedAmount_eq hamt' hmedian hsize]
    split
    · exact hle
    · exact Nat.div_le_div_right (Nat.mul_le_mul_right _ hle)

end Penalty

theorem penalty_exact_two : Currency.getPenalizedAmount (2 ^ 64 - 1) 2 3 = (2 ^ 64 - 1) * 3 / 4 :=
  (@penalty_exact (2 ^ 64 - 1) 2 3 (by decide) (by decide) (by decide)).1

theorem baseRewardFunction_le (hsupply : cur.moneySupply < word64) {coins : Nat}
    (hcoins : coins ≤ cur.moneySupply) (height : Nat) :
    cur.baseRewardFunction coins height ≤ cur.moneySupply - coins := by
  have hleft := sub64_of_le hcoins hsupply
  unfold Currency.baseRewardFunction
  rw [hleft]
  exact Nat.min_le_right _ _

/-- The fees fit, interest leaves room below the supply, and a miner transaction that is not
compared with the reward does not exceed it. The median is in the range `getPenalizedAmount`
asserts. -/
structure Capped (cur : Currency) (below : List BlockEntry) (block : BlockEntry) : Prop where
  fees : FeesFit cur below block
  interest : block.interest cur ≠ 0 →
    coinsOf below + cur.baseRewardFunction (coinsOf below) below.length + block.interest cur ≤
      cur.moneySupply
  miner : below.length ≤ 1 → block.bl.baseTransaction.outputsAmount ≤
    emissionOf cur below block.blockCumulativeSize + block.fees cur
  median : max (rewardMedian cur below) cur.blockGrantedFullRewardZone < word32

/-- The money in circulation: what the blocks of a chain have minted. -/
def circulation (blocks : List BlockEntry) : Int := (blocks.map BlockEntry.minted).sum

/-- One more block keeps the money in circulation below the generated coins, and these below the
supply. -/
theorem Capped.step (h : Capped cur below block) (haccounted : Accounted cur crypto below block)
    (hrate : cur.depositMaxTotalRate ≤ 22) (hterms : DepositTerms cur block)
    (hsupply : cur.moneySupply < word64) (hcoins : coinsOf below ≤ cur.moneySupply) :
    block.alreadyGeneratedCoins ≤ cur.moneySupply ∧
      block.minted ≤ (block.alreadyGeneratedCoins : Int) - coinsOf below := by
  have hbase := baseRewardFunction_le hsupply hcoins below.length
  have hemission : emissionOf cur below block.blockCumulativeSize ≤
      cur.baseRewardFunction (coinsOf below) below.length :=
    getPenalizedAmount_le (by omega) h.median haccounted.reward_size
  have hroom : coinsOf below + emissionOf cur below block.blockCumulativeSize +
      block.interest cur ≤ cur.moneySupply := by
    by_cases hinterest : block.interest cur = 0
    · omega
    · have := h.interest hinterest
      omega
  have hexact := haccounted.exactAccounts hrate hterms h.fees (lt_of_le_of_lt hroom hsupply)
  have hgenerated := hexact.coins
  refine ⟨by omega, ?_⟩
  have hminted := haccounted.minted_eq hexact.amounts
  by_cases hheight : 1 < below.length
  · have hreward := hexact.reward hheight
    omega
  · have hminer := h.miner (not_lt.mp hheight)
    omega

/-- Money in circulation and generated coins stay below the supply, so `getBlockReward` never fails
its assertion and `baseRewardFunction` never wraps. -/
theorem supply_capped_of_run {net : Network} {clock : Nat} {core : Core}
    (hrun : Run net WordCalls clock core) (hrate : net.cur.depositMaxTotalRate ≤ 22)
    (hsupply : net.cur.moneySupply < word64)
    (hterms : ∀ block ∈ core.main.blocks, Accounted.DepositTerms net.cur block)
    (hcapped : Grown (Capped net.cur) core.main.blocks) (height : Nat) :
    circulation (core.main.blocks.take height) ≤ net.cur.moneySupply ∧
      coinsOf (core.main.blocks.take height) ≤ net.cur.moneySupply ∧
      sub64 net.cur.moneySupply (coinsOf (core.main.blocks.take height)) =
        net.cur.moneySupply - coinsOf (core.main.blocks.take height) := by
  have haccounted := accounted_of_run hrun
  -- the invariant of the chain, block by block
  have hinvariant : ∀ blocks above, core.main.blocks = blocks ++ above →
      circulation blocks ≤ coinsOf blocks ∧ coinsOf blocks ≤ net.cur.moneySupply := by
    intro blocks
    induction blocks using reverseRecOn with
    | nil =>
      intro _ _
      exact ⟨le_rfl, Nat.zero_le _⟩
    | append_singleton below block ih =>
      intro above heq
      rw [append_assoc] at heq
      obtain ⟨hcirculation, hcoins⟩ := ih ([block] ++ above) heq
      have hmem : block ∈ core.main.blocks := by
        rw [heq]
        simp
      obtain ⟨hgenerated, hminted⟩ := (hcapped below block above heq).step
        (haccounted below block above heq) hrate (hterms block hmem) hsupply hcoins
      rw [coinsOf_concat]
      refine ⟨?_, hgenerated⟩
      unfold circulation at hcirculation ⊢
      rw [map_append, sum_append, map_singleton, sum_singleton]
      omega
  obtain ⟨hcirculation, hcoins⟩ := hinvariant (core.main.blocks.take height)
    (core.main.blocks.drop height) (take_append_drop _ _).symm
  exact ⟨by omega, hcoins, sub64_of_le hcoins hsupply⟩

/-- `Capped`, for a block that pays no interest. -/
def CappedWithoutInterest (cur : Currency) (below : List BlockEntry) (block : BlockEntry) : Prop :=
  FeesFit cur below block ∧ block.interest cur = 0 ∧
    (below.length ≤ 1 → block.bl.baseTransaction.outputsAmount ≤
      emissionOf cur below block.blockCumulativeSize + block.fees cur) ∧
    max (rewardMedian cur below) cur.blockGrantedFullRewardZone < word32

instance : Decidable (CappedWithoutInterest cur below block) := by
  unfold CappedWithoutInterest
  infer_instance

/-- Blocks without deposits, each of which satisfies the cap. -/
def CappedBlocks (cur : Currency) (blocks : List BlockEntry) : Prop :=
  blocks.length = 3 ∧ (∀ block ∈ blocks, ∀ tx ∈ block.others, tx.deposits = []) ∧
    ∀ k < 3, (blocks[k]?).all (fun block => CappedWithoutInterest cur (blocks.take k) block) = true

instance (blocks : List BlockEntry) : Decidable (CappedBlocks cur blocks) := by
  unfold CappedBlocks
  infer_instance

theorem CappedBlocks.grown {blocks : List BlockEntry} (h : CappedBlocks cur blocks) :
    Grown (Capped cur) blocks := by
  intro below block above heq
  have hlen : below.length < 3 := by
    rw [← h.1, heq, length_append, length_cons]
    omega
  have hblock : blocks[below.length]? = some block := by
    rw [heq, getElem?_append_right le_rfl, Nat.sub_self, getElem?_cons_zero]
  have hbelow : blocks.take below.length = below := by rw [heq, take_left]
  have hall := h.2.2 below.length hlen
  rw [hblock, hbelow, Option.all_some, decide_eq_true_eq] at hall
  exact ⟨hall.1, fun hinterest => (hinterest hall.2.1).elim, hall.2.2.1, hall.2.2.2⟩

theorem supply_capped_of_run_spending :
    ∃ core : Core, core.main.blocks.length = 3 ∧
      circulation core.main.blocks ≤ (openNetwork.cur.moneySupply : Int) := by
  obtain ⟨clock, core, hrun, hcapped⟩ :=
    exists_run_spending (CappedBlocks openNetwork.cur) (by decide +kernel)
  refine ⟨core, hcapped.1, ?_⟩
  have hcap := (supply_capped_of_run hrun (by decide) (by decide)
    (fun block hblock => depositTerms_of_deposits_eq_nil (hcapped.2.1 block hblock)) hcapped.grown
    3).1
  rwa [take_of_length_le hcapped.1.le] at hcap

/-- Nothing compares the miner transaction of the first block with its reward: on the main network
a first block that pays out more than the supply is accepted. -/
theorem first_block_exceeds_supply :
    ∃ clock core, Run numberedNetwork (fun _ _ _ _ => True) clock core ∧
      (numberedNetwork.cur.moneySupply : Int) < circulation core.main.blocks := by
  apply exists_run_of_genesis numberedNetwork
    [(10000, .addNewBlock (numberedBlock 1 420 1 [⟨600000000000000000, .key 1⟩] []))] _
    onGenesis_initial
  decide +kernel

end DarknetCoin
