import DarknetCoin.Theorems.AlternativeCheck
import DarknetCoin.Theorems.StorageFrame

/-!
# The difficulty of alternative blocks

The window of an alternative block is filled from its own chain and from the main chain below the
fork. The work recorded with it is the work `pushBlock` records when the chain is switched to.
-/

namespace DarknetCoin

open Semantics List

variable {net : Network} {main main' : MainChain}

namespace MainChain

variable {cur : Currency} {blocks blocks' : List BlockEntry}

/-- What the difficulty depends on in a block. -/
def work (entry : BlockEntry) : Nat × Nat := (entry.bl.timestamp, entry.cumulativeDifficulty)

theorem getDifficultyForNextBlock_congr (h : blocks.map work = blocks'.map work) :
    getDifficultyForNextBlock cur blocks = getDifficultyForNextBlock cur blocks' := by
  have htimes (offset : Nat) (entries : List BlockEntry) :
      (entries.drop offset).map (fun entry => entry.bl.timestamp) =
        ((entries.map work).drop offset).map Prod.fst := by
    simp [work, Function.comp_def]
  have hworks (offset : Nat) (entries : List BlockEntry) :
      (entries.drop offset).map BlockEntry.cumulativeDifficulty =
        ((entries.map work).drop offset).map Prod.snd := by
    simp [work, Function.comp_def]
  have hlen : blocks.length = blocks'.length := by
    simpa using congrArg length h
  unfold getDifficultyForNextBlock
  simp only [htimes, hworks, h, hlen]

theorem lastCumulativeDifficulty_congr (h : blocks.map work = blocks'.map work) :
    (blocks.getLast?.map BlockEntry.cumulativeDifficulty).getD 0 =
      (blocks'.getLast?.map BlockEntry.cumulativeDifficulty).getD 0 := by
  have hlast (entries : List BlockEntry) : entries.getLast?.map BlockEntry.cumulativeDifficulty =
      (entries.map work).getLast?.map Prod.snd := by
    rw [getLast?_map, Option.map_map]
    rfl
  rw [hlast, hlast, h]

/-- `main'` is reached from `main` by pushing `blocks`, each with success. -/
inductive Pushed (net : Network) (main : MainChain) : List Block → MainChain → Prop
  | nil : Pushed net main [] main
  | snoc {blocks : List Block} {middle last : MainChain} {b : Block}
      {transactions : List Transaction} {now : Nat} (hblocks : Pushed net main blocks middle)
      (hpush : pushBlock net.cur net.crypto now net.checkpoints b transactions middle =
        .done .added last) :
      Pushed net main (blocks ++ [b]) last

theorem Pushed.eq_of_nil (h : Pushed net main [] main') : main' = main := by
  generalize hnil : ([] : List Block) = pushed at h
  cases h with
  | nil => rfl
  | snoc hblocks hpush => exact (append_ne_nil_of_right_ne_nil _ (by simp) hnil.symm).elim

theorem Pushed.of_append {pushed : List Block} {b : Block}
    (h : Pushed net main (pushed ++ [b]) main') :
    ∃ middle transactions now, Pushed net main pushed middle ∧
      pushBlock net.cur net.crypto now net.checkpoints b transactions middle =
      .done .added main' := by
  generalize hsnoc : pushed ++ [b] = all at h
  cases h with
  | nil => exact (append_ne_nil_of_right_ne_nil _ (by simp) hsnoc).elim
  | @snoc front middle last b' transactions now hblocks hpush =>
    obtain ⟨rfl, hb⟩ := append_inj' hsnoc rfl
    cases hb
    exact ⟨middle, transactions, now, hblocks, hpush⟩

end MainChain

namespace Core

open MainChain

/-- The height at which an alternative chain leaves the main chain: that of its first block, or of
the block to be put on the main chain itself. -/
def forkHeight (altChain : List AlternativeBlock) (height : Nat) : Nat :=
  (altChain.head?.map fun entry => entry.2.height).getD height

variable {altChain : List AlternativeBlock} {height : Nat}

/-- The alternative computation takes the window of the chain a switch would produce. -/
theorem getNextDifficultyForAlternativeChain_eq (hpos : 1 ≤ forkHeight altChain height)
    (hle : forkHeight altChain height ≤ main.blocks.length) :
    getNextDifficultyForAlternativeChain net main altChain height =
    getDifficultyForNextBlock net.cur
        (main.blocks.take (forkHeight altChain height) ++ altChain.map Prod.snd) := by
  have hfork : ((altChain.map Prod.snd).head?.map BlockEntry.height).getD height =
      forkHeight altChain height := by
    cases altChain with
    | nil => rfl
    | cons entry rest => rfl
  unfold getNextDifficultyForAlternativeChain getDifficultyForNextBlock
  simp only [hfork]
  generalize forkHeight altChain height = fork at hpos hle
  generalize hcount : net.cur.difficultyBlocksCount = count
  have hbelow : (main.blocks.take fork).length = fork := by
    rw [length_take]
    omega
  have hlen : (main.blocks.take fork ++ altChain.map Prod.snd).length = fork + altChain.length := by
    rw [length_append, hbelow, length_map]
  rw [hlen]
  by_cases hshort : altChain.length < count
  · -- the window reaches below the fork
    rw [if_pos hshort]
    have hstart : fork - min (count - min count altChain.length) fork =
        fork + altChain.length - min (fork + altChain.length) count := by omega
    rw [hstart]
    generalize hoffset : (if fork + altChain.length - min (fork + altChain.length) count = 0 then 1
      else fork + altChain.length - min (fork + altChain.length) count) = offset
    have hoffset_le : offset ≤ fork := by
      rw [← hoffset]
      split <;> omega
    have hwindow : (main.blocks.take fork ++ altChain.map Prod.snd).drop offset =
        (main.blocks.take fork).drop offset ++ altChain.map Prod.snd := by
      apply drop_append_of_le_length
      rw [hbelow]
      exact hoffset_le
    have hfits : ¬count <
        ((main.blocks.take fork).drop offset ++ altChain.map Prod.snd).length := by
      rw [length_append, length_drop, length_map]
      split at hoffset <;> omega
    rw [if_neg hfits, hwindow]
  · -- the window lies in the alternative chain
    rw [if_neg hshort]
    have hstart : fork + altChain.length - min (fork + altChain.length) count =
        fork + (altChain.length - min altChain.length count) := by omega
    have hne : fork + (altChain.length - min altChain.length count) ≠ 0 := by omega
    have hwindow : (main.blocks.take fork ++ altChain.map Prod.snd).drop
        (fork + (altChain.length - min altChain.length count)) =
        (altChain.map Prod.snd).drop (altChain.length - min altChain.length count) := by
      rw [drop_append, hbelow]
      simp
    rw [hstart, if_neg hne, hwindow, length_map]

/-- An alternative chain as `handle_alternative_block` stores it: each block was accepted on top of
those before it, by a node whose main chain starts with `below`, the first on the last block of
`below`. -/
inductive StoredOn (net : Network) (below : List BlockEntry) : List AlternativeBlock → Prop
  | nil : StoredOn net below []
  | snoc {altChain : List AlternativeBlock} {core : Core} {b : Block} {id : Hash} {bei : BlockEntry}
      {isACheckpoint : Bool} (hchain : StoredOn net below altChain)
      (hbelow : core.main.blocks.take below.length = below)
      (haccept : core.checkAlternativeBlock net b id = .ok (.accept bei altChain isACheckpoint))
      (hfirst : altChain = [] → bei.height = below.length) :
      StoredOn net below (altChain ++ [(id, bei)])

variable {below : List BlockEntry} (h : StoredOn net below altChain)
include h

theorem StoredOn.forkHeight_eq (hne : altChain ≠ []) : forkHeight altChain height =
    below.length := by
  induction h with
  | nil => exact (hne rfl).elim
  | @snoc altChain core b id bei isACheckpoint hchain hbelow haccept hfirst ih =>
    cases altChain with
    | nil => exact hfirst rfl
    | cons entry rest => exact ih (cons_ne_nil _ _)

/-- An accepted block on a stored chain has the height and the work its place in the new chain
gives it. -/
theorem StoredOn.accepted_work {core : Core} {b : Block} {id : Hash} {bei : BlockEntry}
    {isACheckpoint : Bool} (hpos : 1 ≤ below.length)
    (hbelow : core.main.blocks.take below.length = below)
    (haccept : core.checkAlternativeBlock net b id = .ok (.accept bei altChain isACheckpoint))
    (hfirst : altChain = [] → bei.height = below.length)
    (hblocks : main.blocks.map work = (below ++ altChain.map Prod.snd).map work) :
    work bei = (b.timestamp, add64
      (getDifficultyForNextBlock net.cur main.blocks) main.cumulativeDifficulty) := by
  obtain ⟨parent, rfl, hacc⟩ := checkAlternativeBlock_eq_accept haccept
  have hle : below.length ≤ core.main.blocks.length := by
    have hlen := congrArg length hbelow
    rw [length_take] at hlen
    omega
  have hheight : bei.height = parent.height + 1 := by
    rw [hacc.entry]
    rfl
  have hfork : forkHeight parent.altChain (parent.height + 1) = below.length := by
    by_cases hnil : parent.altChain = []
    · rw [hnil, ← hfirst hnil, hheight]
      rfl
    · exact h.forkHeight_eq hnil
  -- the difficulties agree because both chains have the same work in them
  have hdiff : getNextDifficultyForAlternativeChain net core.main parent.altChain
      (parent.height + 1) = getDifficultyForNextBlock net.cur main.blocks := by
    rw [getNextDifficultyForAlternativeChain_eq (by omega) (by omega), hfork, hbelow]
    exact getDifficultyForNextBlock_congr hblocks.symm
  have hcumul : parent.cumulativeDifficulty = main.cumulativeDifficulty := by
    have hlast : main.cumulativeDifficulty = (((below ++ parent.altChain.map Prod.snd).getLast?.map
          BlockEntry.cumulativeDifficulty)).getD 0 :=
      lastCumulativeDifficulty_congr hblocks
    rw [hlast]
    cases hacc.attached with
    | @main position entry _ hentry =>
      have hposition : position + 1 = below.length := hheight.symm.trans (hfirst rfl)
      have hget : below[below.length - 1]? = some entry := by
        rw [← hbelow, getElem?_take_of_lt (by rw [hbelow]; omega), hbelow, ← hposition]
        exact hentry
      simp [getLast?_eq_getElem?, hget]
    | @alternative chain front prev fork _ hprev =>
      simp [hprev]
  rw [hacc.entry]
  simp only [work, alternativeEntry, hdiff, hcumul, add64, add_comm]

/-- Pushing a stored chain on the blocks below it gives every block the work stored with it. -/
theorem StoredOn.pushed_work (hpos : 1 ≤ below.length) (hmain : main.blocks = below)
    (hpushed : Pushed net main (altChain.map fun entry => entry.2.bl) main') :
    main'.blocks.map work = (below ++ altChain.map Prod.snd).map work := by
  induction h generalizing main' with
  | nil =>
    rw [hpushed.eq_of_nil, hmain]
    simp
  | @snoc altChain core b id bei isACheckpoint hchain hbelow haccept hfirst ih =>
    rw [map_append] at hpushed
    obtain ⟨middle, transactions, now, hmiddle, hpush⟩ := hpushed.of_append
    have hblocks := ih hmiddle
    obtain ⟨block, happended⟩ := pushBlock_added hpush
    have hb : bei.bl = b := by
      obtain ⟨parent, -, hacc⟩ := checkAlternativeBlock_eq_accept haccept
      rw [hacc.entry]
      rfl
    have hwork : work block = work bei := by
      rw [hchain.accepted_work hpos hbelow haccept hfirst hblocks]
      simp [work, happended.bl, happended.cumulativeDifficulty, hb]
    rw [happended.blocks, map_append, hblocks]
    simp [hwork]

omit h

/-- The difficulty an alternative block is checked against is the one it would have on the main
chain, whatever the lengths on both sides of the fork; so the work stored with it is the work
`pushBlock` gives it after a switch. -/
theorem alternative_difficulty_eq_main :
    (∀ (net : Network) (main : MainChain) (altChain : List AlternativeBlock) (height : Nat),
      1 ≤ forkHeight altChain height → forkHeight altChain height ≤ main.blocks.length →
      getNextDifficultyForAlternativeChain net main altChain height =
      getDifficultyForNextBlock net.cur
          (main.blocks.take (forkHeight altChain height) ++ altChain.map Prod.snd)) ∧
    (∀ (net : Network) (main main' : MainChain) (altChain : List AlternativeBlock),
      1 ≤ main.blocks.length → StoredOn net main.blocks altChain →
      Pushed net main (altChain.map fun entry => entry.2.bl) main' →
      (main'.blocks.drop main.blocks.length).map BlockEntry.cumulativeDifficulty =
        altChain.map fun entry => entry.2.cumulativeDifficulty) := by
  refine ⟨fun net main altChain height hpos hle =>
    getNextDifficultyForAlternativeChain_eq hpos hle,
      fun net main main' altChain hpos hstored hpushed => ?_⟩
  have hwork := hstored.pushed_work hpos rfl hpushed
  have hdrop (entries : List BlockEntry) :
      (entries.drop main.blocks.length).map BlockEntry.cumulativeDifficulty =
        ((entries.map work).drop main.blocks.length).map Prod.snd := by
    simp [work, Function.comp_def]
  rw [hdrop, hwork, ← hdrop]
  simp

/-- A node with one block on the genesis block. -/
def oneBlockCore : Core :=
  perform numberedNetwork 0 (.addNewBlock (numberedBlock 1 420 1 [] [])) (onGenesis numberedNetwork)

/-- The entry such a node stores for a second block on the genesis block. -/
def rivalEntry : BlockEntry := ⟨numberedBlock 11 420 1 [] [], 1, 0, 2, 0, []⟩

/-- The main chain after a switch to the second block. -/
def rivalMain : MainChain :=
  (MainChain.pushBlock Currency.mainnet Crypto.numbered 0 [] rivalEntry.bl []
    (onGenesis numberedNetwork).main).stateD MainChain.empty

theorem alternative_difficulty_eq_main_rival :
    getNextDifficultyForAlternativeChain numberedNetwork rivalMain [(12, rivalEntry)] 2 =
      getDifficultyForNextBlock numberedNetwork.cur (rivalMain.blocks.take 1 ++ [rivalEntry]) ∧
    (rivalMain.blocks.drop 1).map BlockEntry.cumulativeDifficulty =
    [rivalEntry.cumulativeDifficulty] := by
  have haccept : oneBlockCore.checkAlternativeBlock numberedNetwork rivalEntry.bl 12 =
      .ok (.accept rivalEntry [] false) := by decide +kernel
  have hstored : StoredOn numberedNetwork (onGenesis numberedNetwork).main.blocks
      ([] ++ [(12, rivalEntry)]) :=
    .snoc .nil (by decide +kernel) haccept fun _ => by decide +kernel
  have hpushed : Pushed numberedNetwork (onGenesis numberedNetwork).main ([] ++ [rivalEntry.bl])
      rivalMain := .snoc .nil (Outcome.eq_done_of_value? (by decide +kernel))
  constructor
  · exact alternative_difficulty_eq_main.1 numberedNetwork rivalMain [(12, rivalEntry)] 2
      (by decide) (by decide +kernel)
  · exact alternative_difficulty_eq_main.2 _ _ _ _ (by decide +kernel) hstored hpushed

end Core

end DarknetCoin
