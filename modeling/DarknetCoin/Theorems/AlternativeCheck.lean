import DarknetCoin.Data.OrderStatistics
import DarknetCoin.Theorems.WordArithmetic
import DarknetCoin.Model.Core

/-!
# What an accepted alternative block is

`handle_alternative_block` finds the chain of alternative blocks a block extends and the place where
that chain leaves the main chain, and then checks the block as the next one of that chain. The file
says what is known when both halves have passed.
-/

namespace DarknetCoin

open Semantics

namespace Core

variable {net : Network} {core : Core} {b : Block} {id : Hash} {bei : BlockEntry}
  {altChain : List AlternativeBlock} {isACheckpoint : Bool} {parent : AlternativeParent}

theorem mem_of_findAlternative {entry : BlockEntry} (h : core.findAlternative id = some entry) :
    (id, entry) ∈ core.alternativeChains := by
  obtain ⟨front, back, hsplit, -⟩ := List.lookup_eq_some_iff.mp h
  rw [hsplit]
  simp

theorem mem_alternativeChainTo {steps : Nat} {below result : List AlternativeBlock}
    (h : core.alternativeChainTo steps id below = .ok result) :
    ∀ entry ∈ result, entry ∈ below ∨ entry ∈ core.alternativeChains := by
  induction steps generalizing id below with unfold alternativeChainTo at h
  | zero =>
    split at h
    · cases h
      exact fun entry hentry => .inl hentry
    · cases h
  | succ steps ih =>
    split at h
    · cases h
      exact fun entry hentry => .inl hentry
    · rename_i found hfound
      intro entry hentry
      rcases ih h entry hentry with hnew | hold
      · rcases List.mem_cons.mp hnew with rfl | hbelow
        · exact .inr (mem_of_findAlternative hfound)
        · exact .inl hbelow
      · exact .inr hold

/-- The place a block is put on: a block of the main chain, or the end of an alternative chain
that leaves the main chain at the parent of its first block. -/
inductive AttachedTo (net : Network) (core : Core) (b : Block) : AlternativeParent → Prop
  | main {height : Nat} {entry : BlockEntry}
      (hheight : core.main.blockIndex.blockHeight? b.previousBlockHash = some height)
      (hentry : core.main.blocks[height]? = some entry) :
      AttachedTo net core b
        { altChain := []
          timestamps := completeTimestampsVector net core.main height []
          height
          cumulativeDifficulty := entry.cumulativeDifficulty }
  | alternative {altChain : List AlternativeBlock} {front prev : AlternativeBlock}
      {fork : BlockEntry}
      (hfront : altChain.head? = some front) (hprev : altChain.getLast? = some prev)
      (hbelow : front.2.height < core.main.blocks.length)
      (hfork : core.main.blocks[front.2.height - 1]? = some fork)
      (hlink : net.crypto.getBlockHash fork.bl = front.2.bl.previousBlockHash) :
      AttachedTo net core b
        { altChain
          timestamps := completeTimestampsVector net core.main (front.2.height - 1)
            (altChain.reverse.map fun entry => entry.2.bl.timestamp)
          height := prev.2.height
          cumulativeDifficulty := prev.2.cumulativeDifficulty }

/-- The parent that is found is the one the block is attached to. -/
theorem alternativeParent_eq_some
    (h : core.alternativeParent net b (core.main.blockIndex.blockHeight? b.previousBlockHash) =
      .ok (some parent)) :
    core.alternativeChainTo core.alternativeChains.length b.previousBlockHash [] =
    .ok parent.altChain ∧ AttachedTo net core b parent := by
  unfold alternativeParent at h
  split at h
  · cases h
  rename_i altChain hchain
  split at h
  · rename_i front _ prev hfront hprev
    split at h
    · cases h
    rename_i hbelow
    split at h
    · cases h
    rename_i fork hfork
    split at h
    · cases h
    rename_i hlink
    cases h
    exact ⟨hchain, .alternative hfront hprev (not_le.mp hbelow) hfork (not_not.mp hlink)⟩
  · rename_i hempty
    -- a chain with no first or no last block is empty
    have hnil : altChain = [] := by
      cases altChain with
      | nil => rfl
      | cons entry rest => exact (hempty _ _ _ _ rfl (List.getLast?_eq_some_getLast (by simp))).elim
    split at h
    · cases h
    rename_i height hheight
    split at h
    · cases h
    rename_i entry hentry
    cases h
    subst hnil
    exact ⟨hchain, .main hheight hentry⟩

/-- All checks `handle_alternative_block` makes before it stores `b` as `bei` have passed. -/
structure Accepted (net : Network) (core : Core) (b : Block) (id : Hash) (bei : BlockEntry)
    (parent : AlternativeParent) (isACheckpoint : Bool) : Prop where
  height_ne_zero : getBlockHeight b ≠ 0
  allowed :
    net.checkpoints.isAlternativeBlockAllowed core.main.blocks.length (getBlockHeight b) = true
  version : core.main.checkBlockVersion net.cur b = true
  size : ∃ size, core.getBlockCumulativeSize b = .ok size ∧
    MainChain.checkCumulativeBlockSize net.cur size (getBlockHeight b) = true
  known : core.main.blockIndex.blockHeight? b.previousBlockHash ≠ none ∨
    core.findAlternative b.previousBlockHash ≠ none
  chain : core.alternativeChainTo core.alternativeChains.length b.previousBlockHash [] =
    .ok parent.altChain
  attached : AttachedTo net core b parent
  timestamp : MainChain.checkBlockTimestamp net.cur parent.timestamps b = true
  checkpoint : net.checkpoints.checkBlock (parent.height + 1) id = true
  difficulty_ne_zero :
    getNextDifficultyForAlternativeChain net core.main parent.altChain (parent.height + 1) ≠ 0
  work : Currency.checkProofOfWork net.crypto b
    (getNextDifficultyForAlternativeChain net core.main parent.altChain (parent.height + 1)) = true
  miner : MainChain.prevalidateMinerTransaction net.cur net.crypto b (parent.height + 1) = .ok true
  fresh : core.findAlternative id = none
  entry : bei = alternativeEntry parent b
    (getNextDifficultyForAlternativeChain net core.main parent.altChain (parent.height + 1))
  isACheckpoint_eq : isACheckpoint = (net.checkpoints.point? (parent.height + 1)).isSome

/-- Whatever the check accepts has passed every test of it. -/
theorem checkAlternativeBlock_eq_accept
    (h : core.checkAlternativeBlock net b id = .ok (.accept bei altChain isACheckpoint)) :
    ∃ parent, parent.altChain = altChain ∧ Accepted net core b id bei parent isACheckpoint := by
  unfold checkAlternativeBlock at h
  dsimp only at h
  split at h
  · cases h
  rename_i hheight
  split at h
  · cases h
  rename_i hallowed
  split at h
  · cases h
  rename_i hver
  split at h
  · cases h
  rename_i size hsize
  split at h
  · cases h
  rename_i hfits
  split at h
  · cases h
  rename_i hknown
  split at h
  · cases h
  · cases h
  rename_i parent hparent
  obtain ⟨hchain, hattached⟩ := alternativeParent_eq_some hparent
  unfold checkOnParent at h
  dsimp only at h
  split at h
  · cases h
  rename_i htime
  split at h
  · cases h
  rename_i hcheckpoint
  split at h
  · cases h
  rename_i hdiff
  split at h
  · cases h
  rename_i hwork
  split at h
  · cases h
  · cases h
  rename_i hminer
  split at h
  · cases h
  rename_i hfresh
  cases h
  refine ⟨parent, rfl, ?_⟩
  exact
    { height_ne_zero := hheight
      allowed := by simpa using hallowed
      version := by simpa using hver
      size := ⟨size, hsize, by simpa using hfits⟩
      known := not_and_or.mp hknown
      chain := hchain
      attached := hattached
      timestamp := by simpa using htime
      checkpoint := by simpa using hcheckpoint
      difficulty_ne_zero := hdiff
      work := by simpa using hwork
      miner := hminer
      fresh := by simpa using hfresh
      entry := rfl
      isACheckpoint_eq := rfl }

end Core

/-! ### Timestamps

The median rule compares a block with the last timestamps of its chain. For an alternative block
these are put together from the alternative chain and the main chain below it. They are those of the
chain that a switch would leave, unless there are more alternative blocks than the rule looks at,
all of which are taken, or the main chain below is so short that the rule would reach the genesis
block, which is left out. -/

open MainChain List

/-- The timestamps `check_block_timestamp_main` looks at. -/
def MainChain.lastTimestamps (cur : Currency) (main : MainChain) : List Nat :=
  (main.blocks.drop (main.blocks.length - cur.timestampCheckWindow)).map fun entry =>
    entry.bl.timestamp

/-- The element at a place of a list in order. -/
def ranked (v : List Nat) (i : Nat) : Nat := (v.insertionSort (· ≤ ·)).getD i 0

/-- The middle element, or the mean of the two middle elements. -/
def exactMedian (v : List Nat) : Nat :=
  if v.length % 2 = 1 then ranked v (v.length / 2)
  else (ranked v (v.length / 2 - 1) + ranked v (v.length / 2)) / 2

/-- The sum of the two middle elements is a word. -/
def MeanFits (v : List Nat) : Prop :=
  v.length % 2 = 0 → ranked v (v.length / 2 - 1) + ranked v (v.length / 2) < word64

theorem medianValue_eq {v : List Nat} (hfits : MeanFits v) : medianValue v = exactMedian v := by
  unfold medianValue exactMedian
  split
  · next hempty => simp [ranked, length_eq_zero_iff.mp hempty]
  split
  · rfl
  · exact congrArg (· / 2) (add64_of_lt (hfits (by omega)))

theorem exactMedian_mono {v v' : List Nat} (h : Forall₂ (· ≤ ·) v v') :
    exactMedian v ≤ exactMedian v' := by
  have hranked (i : Nat) : ranked v i ≤ ranked v' i := Data.getD_insertionSort_le_of_forall₂ h
  unfold exactMedian
  rw [← h.length_eq]
  split
  · exact hranked _
  · exact Nat.div_le_div_right (Nat.add_le_add (hranked _) (hranked _))

theorem medianValue_lt {v : List Nat} (hlarge : ¬MeanFits v) : medianValue v < exactMedian v := by
  obtain ⟨heven, hsum⟩ := Classical.not_imp.mp hlarge
  have hne : v.length ≠ 0 := fun hempty =>
    hsum (by simp [ranked, length_eq_zero_iff.mp hempty, (by decide : 0 < word64)])
  change (if v.length = 0 then 0 else if v.length % 2 = 1 then ranked v (v.length / 2)
    else add64 (ranked v (v.length / 2 - 1)) (ranked v (v.length / 2)) / 2) < exactMedian v
  rw [exactMedian, if_neg hne, if_neg (by omega), if_neg (by omega), add64]
  -- a whole word is lost, which is more than the rounding of the mean
  rw [Nat.mod_eq_sub_mod (not_lt.mp hsum)]
  have hle := Nat.mod_le (ranked v (v.length / 2 - 1) + ranked v (v.length / 2) - word64) word64
  have : 2 ≤ word64 := by decide
  omega

/-- The rule compares with the exact median exactly if the sum of the two middle timestamps is a
word, and raising timestamps does not let a block through that was rejected. -/
theorem median_rule (cur : Currency) {timestamps : List Nat}
    (hwindow : cur.timestampCheckWindow ≤ timestamps.length) :
    ((∀ b, checkBlockTimestamp cur timestamps b = true ↔ exactMedian timestamps ≤ b.timestamp) ↔
        MeanFits timestamps) ∧
      ∀ raised, Forall₂ (· ≤ ·) timestamps raised → MeanFits timestamps → MeanFits raised →
        ∀ b, checkBlockTimestamp cur timestamps b = false →
          checkBlockTimestamp cur raised b = false := by
  have hcheck {v : List Nat} (hlen : v.length = timestamps.length) (b : Block) :
      checkBlockTimestamp cur v b = decide (medianValue v ≤ b.timestamp) := by
    rw [checkBlockTimestamp, if_neg (by omega)]
  refine ⟨⟨fun hexact => ?_, fun hfits b => ?_⟩, fun raised hraised hfits hfits' b => ?_⟩
  · -- a block at the median that the code computes
    by_contra hlarge
    have hblock := hexact { cur.genesisBlock with timestamp := medianValue timestamps }
    rw [hcheck rfl, decide_eq_true_iff] at hblock
    exact absurd (hblock.mp le_rfl) (not_le.mpr (medianValue_lt hlarge))
  · rw [hcheck rfl, decide_eq_true_iff, medianValue_eq hfits]
  · rw [hcheck rfl, hcheck hraised.length_eq.symm, medianValue_eq hfits, medianValue_eq hfits',
      decide_eq_false_iff_not, decide_eq_false_iff_not]
    exact mt (exactMedian_mono hraised).trans

theorem median_rule_minutes : MeanFits ((range 30).map (60 * ·)) ∧
    ∀ b, checkBlockTimestamp .mainnet ((range 30).map (60 * ·)) b = true ↔
      exactMedian ((range 30).map (60 * ·)) ≤ b.timestamp := by
  have hfits : MeanFits ((range 30).map (60 * ·)) := by
    intro _
    decide +kernel
  exact ⟨hfits, (median_rule .mainnet (by decide)).1.mpr hfits⟩

/-- The sum of the two middle timestamps wraps to zero. -/
theorem median_wraps :
    checkBlockTimestamp .mainnet (replicate 14 0 ++ replicate 16 (2 ^ 63))
    Currency.mainnet.genesisBlock = true ∧ Currency.mainnet.genesisBlock.timestamp <
      exactMedian (replicate 14 0 ++ replicate 16 (2 ^ 63)) := by
  decide +kernel

theorem checkBlockTimestamp_congr {timestamps timestamps' : List Nat} (cur : Currency) (b : Block)
    (h : timestamps.Perm timestamps') :
    checkBlockTimestamp cur timestamps b = checkBlockTimestamp cur timestamps' b := by
  have hsorted : timestamps.insertionSort (· ≤ ·) = timestamps'.insertionSort (· ≤ ·) := by
    apply List.Perm.eq_of_pairwise (fun _ _ _ _ => le_antisymm) (pairwise_insertionSort _ _)
      (pairwise_insertionSort _ _)
    exact (perm_insertionSort _ _).trans (h.trans (perm_insertionSort _ _).symm)
  have hmedian : medianValue timestamps = medianValue timestamps' := by
    simp only [medianValue, hsorted, h.length_eq]
  rw [checkBlockTimestamp, checkBlockTimestamp, hmedian, h.length_eq]

namespace Core

variable {net : Network} {main : MainChain} {fork : Nat} {altChain : List AlternativeBlock}

/-- The main chain after a switch to an alternative chain that leaves it above `fork`. -/
def combinedChain (main : MainChain) (fork : Nat) (altChain : List AlternativeBlock) : MainChain :=
  { main with blocks := main.blocks.take (fork + 1) ++ altChain.map Prod.snd }

/-- Where an alternative chain of some length may leave the main chain. -/
def Covered (cur : Currency) (fork length : Nat) : Prop :=
  length ≤ cur.timestampCheckWindow ∧
    (length = cur.timestampCheckWindow ∨ fork = 0 ∨ cur.timestampCheckWindow ≤ length + fork)

theorem completeTimestampsVector_perm (hfork : fork < main.blocks.length)
    (h : Covered net.cur fork altChain.length) : (completeTimestampsVector net main fork
      (altChain.reverse.map fun entry => entry.2.bl.timestamp)).Perm
      ((combinedChain main fork altChain).lastTimestamps net.cur) := by
  have htake : (main.blocks.take (fork + 1)).length = fork + 1 := length_take_of_le hfork
  have halt : (altChain.reverse.map fun entry => entry.2.bl.timestamp).Perm
      ((altChain.map Prod.snd).map fun entry => entry.bl.timestamp) := by
    rw [map_map]
    exact altChain.reverse_perm.map _
  obtain ⟨hle, hcases⟩ := h
  simp only [completeTimestampsVector, lastTimestamps, combinedChain, length_append, length_map,
    length_reverse, htake, not_le.mpr hfork, if_false]
  split
  next hfull =>
    -- the alternative chain alone
    rw [drop_append_of_le_length (by omega), drop_of_length_le (by omega)]
    exact halt
  next hnot =>
    split
    next hzero =>
      rw [show fork + 1 + altChain.length - net.cur.timestampCheckWindow =
        0 by omega, drop_zero, map_append, hzero]
      exact (halt.append_right _).trans perm_append_comm
    next hpos =>
      rw [drop_append_of_le_length (by omega), map_append,
        show fork - (net.cur.timestampCheckWindow - altChain.length) + 1 =
          fork + 1 + altChain.length - net.cur.timestampCheckWindow by omega]
      exact (halt.append ((reverse_perm _).map _)).trans perm_append_comm

theorem covered_of_perm (hfork : fork < main.blocks.length)
    (h : (completeTimestampsVector net main fork
      (altChain.reverse.map fun entry => entry.2.bl.timestamp)).Perm
      ((combinedChain main fork altChain).lastTimestamps net.cur)) :
      Covered net.cur fork altChain.length := by
  have htake : (main.blocks.take (fork + 1)).length = fork + 1 := length_take_of_le hfork
  have hlen := h.length_eq
  simp only [completeTimestampsVector, lastTimestamps, combinedChain, length_map,
    length_reverse, length_drop, not_le.mpr hfork, if_false] at hlen
  rw [Covered]
  split at hlen
  · simp only [length_map, length_reverse] at hlen
    omega
  · split at hlen <;> simp only [length_append, length_map, length_reverse, length_drop]
      at hlen <;> omega

/-- The height of the last block of the main chain that an alternative block stands on. -/
def forkOf (parent : AlternativeParent) : Nat :=
  match parent.altChain.head? with
  | none => parent.height
  | some front => front.2.height - 1

/-- The timestamps for an alternative block are those of the main chain after a switch exactly where
the alternative chain is covered, and there the two paths come to the same verdict. -/
theorem alternative_timestamps_agree {core : Core} {b : Block} {parent : AlternativeParent}
    (hparent : core.alternativeParent net b
      (core.main.blockIndex.blockHeight? b.previousBlockHash) = .ok (some parent)) :
    let combined := combinedChain core.main (forkOf parent) parent.altChain
    (parent.timestamps.Perm (combined.lastTimestamps net.cur) ↔
      Covered net.cur (forkOf parent) parent.altChain.length) ∧
    (Covered net.cur (forkOf parent) parent.altChain.length →
      checkBlockTimestamp net.cur parent.timestamps b =
          checkBlockTimestamp net.cur (combined.lastTimestamps net.cur) b ∧
        ∀ now, b.timestamp ≤ now + net.cur.blockFutureTimeLimit →
          combined.checkBlockTimestampMain net.cur now b =
          checkBlockTimestamp net.cur parent.timestamps b) := by
  intro combined
  obtain ⟨hfork, htimes⟩ : forkOf parent < core.main.blocks.length ∧
      parent.timestamps = completeTimestampsVector net core.main (forkOf parent)
        (parent.altChain.reverse.map fun entry => entry.2.bl.timestamp) := by
    cases (alternativeParent_eq_some hparent).2 with
    | main hheight hentry => exact ⟨(List.getElem?_eq_some_iff.mp hentry).1, rfl⟩
    | alternative hfront hprev hbelow hfork' =>
      rw [forkOf, hfront]
      exact ⟨(List.getElem?_eq_some_iff.mp hfork').1, rfl⟩
  rw [htimes]
  refine ⟨⟨covered_of_perm hfork, completeTimestampsVector_perm hfork⟩, fun hcovered => ?_⟩
  have hverdict := checkBlockTimestamp_congr net.cur b
    (completeTimestampsVector_perm hfork hcovered)
  refine ⟨hverdict, fun now hnow => ?_⟩
  rw [checkBlockTimestampMain, if_neg (not_lt.mpr hnow)]
  exact hverdict.symm

/-- A node with 31 blocks, the timestamps a thousand seconds apart. -/
def spacedCore : Core :=
  { empty with
    main :=
      { MainChain.empty with
        blocks := (List.range 31).map fun height =>
          ⟨numberedBlock height (height - 1) height [] [], height, 0, height, 0, []⟩
        blockIndex := (List.range 31).map fun height => BitVec.ofNat 256 (1 + height) } }

theorem alternative_timestamps_agree_spaced :
    ∃ parent, spacedCore.alternativeParent numberedNetwork (numberedBlock 40 30 31 [] [])
          (spacedCore.main.blockIndex.blockHeight?
            (numberedBlock 40 30 31 [] []).previousBlockHash) = .ok (some parent) ∧
      parent.timestamps.Perm
        ((combinedChain spacedCore.main (forkOf parent) parent.altChain).lastTimestamps
          numberedNetwork.cur) := by
  have hparent : spacedCore.alternativeParent numberedNetwork (numberedBlock 40 30 31 [] [])
      (spacedCore.main.blockIndex.blockHeight? (numberedBlock 40 30 31 [] []).previousBlockHash) =
      .ok (some ⟨[], completeTimestampsVector numberedNetwork spacedCore.main 30 [], 30, 30⟩) := rfl
  exact ⟨_, hparent, (alternative_timestamps_agree hparent).1.mpr
    ⟨by decide, .inr (.inr (by decide))⟩⟩

/-- A block at height 30 with the timestamp of the genesis block is below the median of the 30
blocks it stands on. As an alternative block it is compared with 29, too few for the rule. -/
theorem old_block_passes :
    ∃ parent, spacedCore.alternativeParent numberedNetwork
    { numberedBlock 40 29 30 [] [] with timestamp := 0 } (spacedCore.main.blockIndex.blockHeight?
            (numberedBlock 40 29 30 [] []).previousBlockHash) = .ok (some parent) ∧
      checkBlockTimestamp numberedNetwork.cur parent.timestamps
        { numberedBlock 40 29 30 [] [] with timestamp := 0 } = true ∧
      (combinedChain spacedCore.main (forkOf parent) parent.altChain).checkBlockTimestampMain
        numberedNetwork.cur 40000 { numberedBlock 40 29 30 [] [] with timestamp := 0 } = false :=
  ⟨_, rfl, by decide +kernel, by decide +kernel⟩

end Core

end DarknetCoin
