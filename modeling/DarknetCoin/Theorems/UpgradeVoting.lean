import DarknetCoin.Theorems.PushBlock
import DarknetCoin.Theorems.WrittenBlock

/-!
# The vote on the upgrade

The detector records the first height at which the vote was complete and forgets it when that block
is popped. A node that starts from a stored chain looks it up again; on a chain of the new version
that search starts one block too late.
-/

namespace DarknetCoin

open Semantics Data MainChain UpgradeDetector List

/-- The version of a block at a height, when the vote was complete at another. -/
def versionFor (cur : Currency) (votingCompleteHeight height : Nat) : Nat :=
  ({ MainChain.empty with votingCompleteHeight } :
    MainChain).getBlockMajorVersionForHeight cur height

/-- Chains grown and shrunk block by block, with the height the detector has recorded. Every block
has the version its height asks for; heights are words. -/
inductive Voting (cur : Currency) : List BlockEntry → Nat → Prop
  | empty : Voting cur [] undefHeight
  | push {blocks : List BlockEntry} {votingCompleteHeight : Nat}
      (h : Voting cur blocks votingCompleteHeight) (block : BlockEntry)
      (hversion : block.bl.majorVersion = versionFor cur votingCompleteHeight blocks.length)
      (hfits : blocks.length < undefHeight) :
      Voting cur (blocks ++ [block]) (votingAfterPush cur (blocks ++ [block]) votingCompleteHeight)
  | pop {blocks : List BlockEntry} {votingCompleteHeight : Nat}
      (h : Voting cur blocks votingCompleteHeight) :
      Voting cur blocks.dropLast (votingAfterPop blocks.dropLast votingCompleteHeight)

/-- The least height of a chain at which the vote is complete, `undefHeight` if there is none. -/
def LeastComplete (cur : Currency) (blocks : List BlockEntry) (height : Nat) : Prop :=
  (height = undefHeight ∧ ∀ k < blocks.length, isVotingComplete cur blocks k = false) ∨
    (height < blocks.length ∧ isVotingComplete cur blocks height = true ∧
      ∀ k < height, isVotingComplete cur blocks k = false)

variable {cur : Currency} {blocks : List BlockEntry} {block : BlockEntry} {v : Nat}

/-- Whether the vote is complete at a height does not depend on the blocks above it. -/
theorem isVotingComplete_append {height : Nat} (h : height < blocks.length)
    (above : List BlockEntry) :
    isVotingComplete cur (blocks ++ above) height = isVotingComplete cur blocks height := by
  unfold isVotingComplete
  by_cases hlow : height < cur.upgradeVotingWindow - 1
  · rw [if_pos hlow, if_pos hlow]
  have hwindow : ((blocks ++ above).drop (height + 1 - cur.upgradeVotingWindow)).take
      cur.upgradeVotingWindow =
      (blocks.drop (height + 1 - cur.upgradeVotingWindow)).take cur.upgradeVotingWindow := by
    rw [drop_append_of_le_length (by omega), take_append_of_le_length]
    rw [length_drop]
    omega
  rw [hwindow]

namespace LeastComplete

variable (h : LeastComplete cur blocks v)
include h

theorem push (hundef : cur.upgradeHeight = undefHeight) (hfits : blocks.length < undefHeight) :
    LeastComplete cur (blocks ++ [block]) (votingAfterPush cur (blocks ++ [block]) v) := by
  have hlast : (blocks ++ [block]).length - 1 = blocks.length := by simp
  unfold votingAfterPush
  rw [if_neg (not_not.mpr hundef), hlast]
  rcases h with ⟨rfl, hnone⟩ | ⟨hlt, hcomplete, hleast⟩
  · have hbelow : ∀ k < blocks.length, isVotingComplete cur (blocks ++ [block]) k = false := by
      intro k hk
      rw [isVotingComplete_append hk]
      exact hnone k hk
    rw [if_neg (not_not.mpr rfl)]
    split
    · next hcomplete => exact .inr ⟨by simp, hcomplete, hbelow⟩
    rename_i hnot
    refine .inl ⟨rfl, fun k hk => ?_⟩
    rw [length_append] at hk
    rcases Nat.lt_succ_iff_lt_or_eq.mp hk with hlt | rfl
    · exact hbelow k hlt
    · simpa using hnot
  · rw [if_pos (by omega)]
    refine Or.inr ⟨by rw [length_append]; omega, ?_, fun k hk => ?_⟩
    · rw [isVotingComplete_append hlt]
      exact hcomplete
    · rw [isVotingComplete_append (by omega)]
      exact hleast k hk

omit h in
theorem pop (h : LeastComplete cur (blocks ++ [block]) v)
    (hfits : (blocks ++ [block]).length ≤ undefHeight) :
    LeastComplete cur blocks (votingAfterPop blocks v) := by
  unfold votingAfterPop
  rw [length_append, length_singleton] at hfits
  rcases h with ⟨rfl, hnone⟩ | ⟨hlt, hcomplete, hleast⟩
  · refine .inl ⟨rfl, fun k hk => ?_⟩
    rw [← isVotingComplete_append hk [block]]
    exact hnone k (by rw [length_append]; omega)
  · rw [length_append, length_singleton] at hlt
    have hbelow : ∀ k, k < v → k < blocks.length → isVotingComplete cur blocks k = false := by
      intro k hk hlen
      rw [← isVotingComplete_append hlen [block]]
      exact hleast k hk
    split
    · next hlast => exact .inl ⟨rfl, fun k hk => hbelow k (by omega) hk⟩
    rename_i hnot
    have hv : v < blocks.length := by
      by_contra hge
      exact hnot ⟨by omega, by omega⟩
    refine .inr ⟨hv, ?_, fun k hk => hbelow k hk (by omega)⟩
    rw [← isVotingComplete_append hv [block]]
    exact hcomplete

theorem eq_undefHeight_or_lt : v = undefHeight ∨ v < blocks.length := by
  rcases h with ⟨hundef, -⟩ | ⟨hlt, -⟩
  · exact .inl hundef
  · exact .inr hlt

theorem unique {w : Nat} (h' : LeastComplete cur blocks w) : v = w := by
  rcases h with ⟨rfl, hnone⟩ | ⟨hlt, hcomplete, hleast⟩
  · rcases h' with ⟨rfl, -⟩ | ⟨hlt', hcomplete', -⟩
    · rfl
    · rw [hnone w hlt'] at hcomplete'
      cases hcomplete'
  · rcases h' with ⟨rfl, hnone⟩ | ⟨hlt', hcomplete', hleast'⟩
    · rw [hnone v hlt] at hcomplete
      cases hcomplete
    rcases lt_trichotomy v w with hvw | hvw | hvw
    · rw [hleast' v hvw] at hcomplete
      cases hcomplete
    · exact hvw
    · rw [hleast w hvw] at hcomplete'
      cases hcomplete'

omit h

/-- The height recorded for the blocks below, if it was defined, stays the recorded one. -/
theorem of_append {above : List BlockEntry} (h : LeastComplete cur (blocks ++ above) v)
    (hlt : v < blocks.length) : LeastComplete cur blocks v := by
  rcases h with ⟨rfl, hnone⟩ | ⟨-, hcomplete, hleast⟩
  · refine .inl ⟨rfl, fun k hk => ?_⟩
    rw [← isVotingComplete_append hk above]
    exact hnone k (by rw [length_append]; omega)
  · refine .inr ⟨hlt, ?_, fun k hk => ?_⟩
    · rw [← isVotingComplete_append hlt above]
      exact hcomplete
    · rw [← isVotingComplete_append (by omega) above]
      exact hleast k hk

end LeastComplete

/-- The version of a block fits the vote among the blocks below it. -/
def FitsVote (cur : Currency) (below : List BlockEntry) (block : BlockEntry) : Prop :=
  ∃ height, LeastComplete cur below height ∧ block.bl.majorVersion =
    versionFor cur height below.length

/-- What the detector has recorded is the least height, and every block has its version. -/
theorem Voting.leastComplete (hundef : cur.upgradeHeight = undefHeight) (h : Voting cur blocks v) :
    LeastComplete cur blocks v ∧ Grown (FitsVote cur) blocks ∧ blocks.length ≤ undefHeight := by
  induction h with
  | empty => exact ⟨.inl ⟨rfl, fun k hk => by cases hk⟩, .nil, Nat.zero_le _⟩
  | push h block hver hfits ih =>
    obtain ⟨hleast, hgrown, -⟩ := ih
    refine ⟨hleast.push hundef hfits, hgrown.concat ⟨_, hleast, hver⟩, ?_⟩
    rw [length_append]
    exact hfits
  | @pop blocks v h ih =>
    obtain ⟨hleast, hgrown, hlen⟩ := ih
    rcases eq_nil_or_concat blocks with rfl | ⟨below, block, rfl⟩
    · refine ⟨?_, .nil, Nat.zero_le _⟩
      rcases hleast with ⟨rfl, hnone⟩ | ⟨hlt, -⟩
      · exact .inl ⟨if_neg fun hand => hand.1 rfl, fun k hk => by cases hk⟩
      · cases hlt
    · rw [concat_eq_append] at *
      rw [dropLast_concat]
      refine ⟨hleast.pop hlen, hgrown.left, ?_⟩
      rw [length_append] at hlen
      omega

theorem versionFor_eq (cur : Currency) (v height : Nat) :
    versionFor cur v height = 1 ∨ versionFor cur v height = 2 := by
  unfold versionFor getBlockMajorVersionForHeight
  split
  · exact .inr rfl
  · exact .inl rfl

/-- A block of the old version stands within the distance of the upgrade above the vote. -/
theorem le_add_of_versionFor (hundef : cur.upgradeHeight = undefHeight) {height : Nat}
    (hv : v ≠ undefHeight) (h : versionFor cur v height = 1) : height ≤ v + cur.upgradeWindow := by
  unfold versionFor getBlockMajorVersionForHeight upgradeHeight at h
  rw [if_pos hundef, if_neg hv] at h
  by_contra hlt
  have hbelow : cur.calculateUpgradeHeight v < height :=
    lt_of_le_of_lt (Nat.mod_le _ _) (not_le.mp hlt)
  rw [if_pos hbelow] at h
  cases h

/-- The search finds the recorded height if that lies in the range it looks at. -/
theorem findVotingCompleteHeight_eq (h : LeastComplete cur blocks v)
    (hlen : blocks.length ≤ undefHeight) {last : Nat} (hlast : last < blocks.length)
    (hrange : v = undefHeight ∨ v ≤ last ∧ last ≤ v + cur.upgradeWindow) :
    findVotingCompleteHeight cur blocks last = v := by
  have hstart : (if maxUpgradeDistance cur < last then
      last - maxUpgradeDistance cur else 0) = last - cur.upgradeWindow := by
    unfold maxUpgradeDistance
    split
    · rfl
    · omega
  unfold findVotingCompleteHeight
  dsimp only
  rw [hstart]
  rcases h with ⟨rfl, hnone⟩ | ⟨hlt, hcomplete, hleast⟩
  · -- no height is complete, so the search ends without a result
    have hempty : (range' (last - cur.upgradeWindow) (last + 1 - (last - cur.upgradeWindow))).find?
        (fun i => isVotingComplete cur blocks i) = none := by
      rw [find?_eq_none]
      intro k hk
      rw [mem_range'_1] at hk
      rw [hnone k (by omega)]
      exact Bool.false_ne_true
    rw [hempty]
    rfl
  · have hfound : (range' (last - cur.upgradeWindow) (last + 1 - (last - cur.upgradeWindow))).find?
        (fun i => isVotingComplete cur blocks i) = some v := by
      rw [find?_range'_eq_some]
      refine ⟨hcomplete, ?_, fun k _ hk => ?_⟩
      · rw [mem_range'_1]
        rcases hrange with rfl | ⟨hle, hwindow⟩
        · omega
        · omega
      · rw [hleast k hk]
        rfl
    rw [hfound]
    rfl

/-- The height recorded along a chain is the least one at which the vote is complete, and a
detector started afresh on a chain without blocks of the new version finds it. -/
theorem voting_survives_restart (hundef : cur.upgradeHeight = undefHeight)
    (h : Voting cur blocks v) : LeastComplete cur blocks v ∧
    ((∀ entry ∈ blocks, entry.bl.majorVersion ≠ 2) → init cur blocks = some v) := by
  obtain ⟨hleast, hgrown, hlen⟩ := h.leastComplete hundef
  refine ⟨hleast, fun hold => ?_⟩
  rcases eq_nil_or_concat blocks with rfl | ⟨below, block, rfl⟩
  · rcases hleast.eq_undefHeight_or_lt with rfl | hlt
    · rfl
    · cases hlt
  · rw [concat_eq_append] at *
    obtain ⟨w, hw, hver⟩ := hgrown.last
    have hone : block.bl.majorVersion = 1 := by
      rcases versionFor_eq cur w below.length with hv | hv
      · rw [hver, hv]
      · exact (hold block (by simp) (hver.trans hv)).elim
    unfold init
    rw [getLast?_concat]
    dsimp only
    rw [if_pos hundef, if_pos hone, length_append, length_singleton]
    congr 1
    apply findVotingCompleteHeight_eq hleast hlen (by simp)
    rw [length_append] at hlen
    -- the last block has the old version, so it is not far above the vote
    rcases hleast.eq_undefHeight_or_lt with hv | hv
    · exact .inl hv
    rw [length_append, length_singleton] at hv
    refine .inr ⟨by omega, ?_⟩
    by_cases hlast : v = below.length
    · omega
    have hbelow := hleast.of_append (show v < below.length by omega)
    rw [hw.unique hbelow, hone] at hver
    exact le_add_of_versionFor hundef (by omega) hver.symm

/-- Blocks whose height is a half-word, as its type in the source. -/
def heightSupply : Supply where
  Good b := getBlockHeight b < word32
  Tx := SemanticallyValid
  semantic _ h := h

theorem voting_invariant (net : Network) : MainInvariant net heightSupply fun main =>
      Voting net.cur main.blocks main.votingCompleteHeight := by
  apply storage_invariant
  · intro main main' hstorage hmain
    rw [hstorage.blocks, hstorage.votingCompleteHeight]
    exact hmain
  · intro now blockData transactions main block main' hgood _ hwritten hmain
    have hheight := hwritten.header.getBlockHeight_eq
    rw [hwritten.votingCompleteHeight, hwritten.appended.blocks]
    apply hmain.push block
    · have hver := hwritten.header.version
      rw [checkBlockVersion, beq_iff_eq, hheight, ← hwritten.appended.bl] at hver
      exact hver
    · have hword : getBlockHeight blockData < word32 := hgood
      rw [word32] at hword
      rw [undefHeight]
      omega
  · intro main main' hunwritten hmain
    rw [hunwritten.votingCompleteHeight, hunwritten.blocks]
    exact hmain.pop

/-- Submitted blocks claim a height that is a half-word. -/
def HalfWordHeights (_ _ : Nat) (_ : Core) : Call → Prop
  | .addNewBlock bl => getBlockHeight bl < word32
  | _ => True

/-- The main chain of a node is such a chain, with the height its detector has recorded. -/
theorem voting_of_run {net : Network} {clock : Nat} {core : Core}
    (hrun : Core.Run net HalfWordHeights clock core) :
    Voting net.cur core.main.blocks core.main.votingCompleteHeight := by
  have hgen : getBlockHeight net.cur.genesisBlock < word32 := Nat.pow_pos (by decide)
  exact (Core.Supplied.of_run (voting_invariant net) Voting.empty (fun _ => hgen) hrun
    (fun hok _ => hok) fun _ => semanticallyValid_of_checkTxSemantic).main

/-- Whatever calls a node gets, its detector has recorded the least height at which the vote is
complete, and every block has the version that the vote below it asks for. -/
theorem vote_of_run {net : Network} {clock : Nat} {core : Core}
    (hundef : net.cur.upgradeHeight = undefHeight)
    (hrun : Core.Run net HalfWordHeights clock core) :
    LeastComplete net.cur core.main.blocks core.main.votingCompleteHeight ∧
      Grown (FitsVote net.cur) core.main.blocks := by
  obtain ⟨hleast, hgrown, -⟩ := (voting_of_run hrun).leastComplete hundef
  exact ⟨hleast, hgrown⟩

/-- Push blocks that have the version their height asks for. -/
def pushVotes (cur : Currency) : List BlockEntry → List BlockEntry → Nat →
    Option (List BlockEntry × Nat)
  | [], blocks, v => some (blocks, v)
  | block :: rest, blocks, v =>
    if block.bl.majorVersion = versionFor cur v blocks.length ∧ blocks.length < undefHeight then
      pushVotes cur rest (blocks ++ [block]) (votingAfterPush cur (blocks ++ [block]) v)
    else none

theorem Voting.pushVotes {rest : List BlockEntry} {result : List BlockEntry × Nat}
    (h : Voting cur blocks v) (hres : pushVotes cur rest blocks v = some result) :
    Voting cur result.1 result.2 := by
  induction rest generalizing blocks v with
  | nil =>
    cases hres
    exact h
  | cons block rest ih =>
    unfold pushVotes at hres
    split at hres
    · next hblock => exact ih (h.push block hblock.1 hblock.2) hres
    · cases hres

/-- A vote of two blocks, both of which have to agree; the upgrade comes three blocks later. -/
def votingCurrency : Currency :=
  { Currency.mainnet with
    upgradeHeight := undefHeight
    upgradeVotingThreshold := 100
    upgradeVotingWindow := 2
    upgradeWindow := 3 }

def votingNetwork : Network := ⟨votingCurrency, Crypto.numbered, []⟩

/-- A node gets six blocks on the genesis block: the first two vote for the upgrade, the last one
has the new version. -/
def votingCalls : List (Nat × Call) :=
  [(1, 420, 1, 1), (2, 1, 1, 1), (3, 2, 1, 0), (4, 3, 1, 0), (5, 4, 1, 0), (6, 5, 2, 0)].map
    fun (height, previous, majorVersion, minorVersion) => (10000, .addNewBlock
      { numberedBlock height previous height [⟨200 * Currency.coin, .key 1⟩] [] with
        majorVersion, minorVersion })

theorem halfWordHeights_votingCalls : ∀ entry ∈ votingCalls, ∀ clock core,
    HalfWordHeights clock entry.1 core entry.2 := by
  intro entry hentry _ _
  obtain ⟨⟨height, previous, majorVersion, minorVersion⟩, hmem, rfl⟩ := mem_map.mp hentry
  have hheights : ∀ row ∈ [(1, 420, 1, 1), (2, 1, 1, 1), (3, 2, 1, 0), (4, 3, 1, 0), (5, 4, 1, 0),
      (6, 5, 2, 0)], row.1 < word32 := by decide
  exact hheights _ hmem

/-- The vote is complete with the second of them, and the new version comes in time. -/
theorem vote_of_run_completed : ∃ clock core, Core.Run votingNetwork HalfWordHeights clock core ∧
    core.main.blocks.map (·.bl.majorVersion) = [1, 1, 1, 1, 1, 1, 2] ∧
    core.main.votingCompleteHeight = 2 ∧ LeastComplete votingCurrency core.main.blocks 2 ∧
    Grown (FitsVote votingCurrency) core.main.blocks := by
  have hstart : Core.Run votingNetwork HalfWordHeights 0 (Core.onGenesis votingNetwork) :=
    .start (Core.onGenesis_initial_of (by decide +kernel))
  obtain ⟨clock, core, hrun, hversions, hheight⟩ := Core.exists_run_of_performAll votingCalls
    (fun core => core.main.blocks.map (·.bl.majorVersion) = [1, 1, 1, 1, 1, 1, 2] ∧
      core.main.votingCompleteHeight = 2) halfWordHeights_votingCalls hstart (by decide +kernel)
  obtain ⟨hleast, hgrown⟩ := vote_of_run rfl hrun
  exact ⟨clock, core, hrun, hversions, hheight, hheight ▸ hleast, hgrown⟩

/-- A block of a version; the minor version is the vote. -/
def voteBlock (majorVersion minorVersion : Nat) : BlockEntry :=
  newBlockEntry
    { Currency.genesisBlock Currency.mainnet with majorVersion, minorVersion }

/-- The first blocks of a chain: the second and the third one vote for the upgrade. -/
def agreedBlocks : List BlockEntry :=
  [voteBlock 1 0, voteBlock 1 1, voteBlock 1 1, voteBlock 1 0, voteBlock 1 0, voteBlock 1 0]

theorem voting_survives_restart_agreed :
    ∃ v, Voting votingCurrency agreedBlocks v ∧ v = 2 ∧ init votingCurrency agreedBlocks =
    some v := by
  have hpush : pushVotes votingCurrency agreedBlocks [] undefHeight = some (agreedBlocks, 2) := by
    decide +kernel
  have hvoting : Voting votingCurrency agreedBlocks 2 := Voting.empty.pushVotes hpush
  exact ⟨2, hvoting, rfl, (voting_survives_restart rfl hvoting).2 (by decide +kernel)⟩

/-- One block of the new version on top of the same chain, and the new detector fails. -/
theorem restart_after_upgrade_fails :
    ∃ blocks, Voting votingCurrency blocks 2 ∧ LeastComplete votingCurrency blocks 2 ∧
      init votingCurrency blocks = none := by
  have hpush : pushVotes votingCurrency (agreedBlocks ++ [voteBlock 2 0]) [] undefHeight =
      some (agreedBlocks ++ [voteBlock 2 0], 2) := by
    decide +kernel
  have hvoting : Voting votingCurrency (agreedBlocks ++ [voteBlock 2 0]) 2 :=
    Voting.empty.pushVotes hpush
  exact ⟨_, hvoting, (hvoting.leastComplete rfl).1, by decide +kernel⟩

end DarknetCoin
