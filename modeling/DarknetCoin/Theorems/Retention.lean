import DarknetCoin.Theorems.NodeInvariant

/-!
# What the operations of a node retain

Blocks leave the main chain in `popBlocks` only, and below its height the main chain stays as it is
through a whole switch of chains, with all its failures. `Core.CallFrame` lists the steps of a call.
-/

namespace DarknetCoin

open Semantics Program DarknetCoin.Core MainChain List

variable {net : Network} {now : Nat} {kept : List BlockEntry} {Q : AlternativeBlock → Prop}

section Steps

variable {I : Core → Prop}

/-- What does not depend on the pool is kept by every program on the pool. -/
theorem Core.keeps_onPool {α : Type}
    (hI : ∀ (core : Core) pool, I core → I { core with mempool := pool })
    (p : TransactionValidator → Program TxMemoryPool α) : Keeps I (onPool net now p) := by
  refine Keeps.get.bind fun core => .zoom fun core' h => ?_
  cases p (core.validator net now) core'.mempool with
  | done a pool => exact hI core' pool h
  | thrown pool => exact hI core' pool h
  | stuck => trivial

theorem Core.keeps_saveInOrder (hadd : ∀ tx kept, Keeps I (onPool net now fun validator =>
      TxMemoryPool.addTxHashed net.cur net.crypto validator now tx kept))
      (transactions : List Transaction) : Keeps I (saveInOrder net now transactions) := by
  induction transactions with
  | nil => exact .pure ()
  | cons tx rest ih => exact (hadd tx true).bind fun result => .ite (fun _ => ih) fun _ => .throw

/-- Every step of a push keeps `I`: the pool gives transactions or gets them back, the main chain is
pushed to, and the limit of the sizes changes. -/
structure Core.PushFrame (net : Network) (now : Nat) (I : Core → Prop) : Prop where
  add : ∀ tx kept, Keeps I (Core.onPool net now fun validator =>
    TxMemoryPool.addTxHashed net.cur net.crypto validator now tx kept)
  take : ∀ id, Keeps I (Core.onPool net now fun _ =>
    modifyGet (TxMemoryPool.takeTx net.crypto id))
  push : ∀ blockData transactions, Keeps I (Core.onMain
    (MainChain.pushBlock net.cur net.crypto now net.checkpoints blockData transactions))
  limit : ∀ core, I core → I (core.updateNextComulativeSizeLimit net)

namespace Core.PushFrame

variable (h : PushFrame net now I)
include h

theorem takeTransactions (taken : List Transaction) (ids : List Hash) :
    Keeps I (takeTransactions net now taken ids) := by
  induction ids generalizing taken with
  | nil => exact .pure _
  | cons id ids ih =>
    refine (h.take id).bind fun found => ?_
    cases found with
    | some tx => exact ih (tx :: taken)
    | none => exact (keeps_saveInOrder h.add taken).bind fun _ => .pure _

theorem pushBlock (blockData : Block) : Keeps I (pushBlock net now blockData) := by
  refine (h.takeTransactions [] blockData.transactionHashes).bind fun loaded => ?_
  cases loaded with
  | none => exact .pure _
  | some transactions =>
    refine (h.push blockData transactions).bind fun result => ?_
    cases result with
    | added => exact .bind (.modify h.limit) fun _ => .pure _
    | rejected failed => exact (keeps_saveInOrder h.add _).bind fun _ => .pure _

theorem tryPushBlock (blockData : Block) : Keeps I (tryPushBlock net now blockData) := by
  refine (h.pushBlock blockData).bind fun result => ?_
  cases result with
  | added => exact .pure _
  | rejected failed => exact .pure _

theorem connectAlternatives (altChain : List AlternativeBlock) :
    Keeps I (connectAlternatives net now altChain) := by
  induction altChain with
  | nil => exact .pure _
  | cons entry rest ih =>
    exact (h.tryPushBlock entry.2.bl).bind fun _ => .ite (fun _ => ih) fun _ => .pure _

end Core.PushFrame

/-- Every step of a call keeps `I`, as long as the first `bound` blocks of the main chain stay. -/
structure Core.CallFrame (net : Network) (now bound : Nat) (I : Core → Prop) : Prop extends
    PushFrame net now I where
  length_le : ∀ core, I core → bound ≤ core.main.blocks.length
  pop : ∀ core id, I core → bound < core.main.blocks.length →
    (Core.onMain (MainChain.unlinkBlock net.crypto id) core).Holds (fun _ => I) I
  erase : ∀ core entry, I core → I (core.eraseAlternative net entry)
  idle : Keeps I (Core.onIdle net now)
  fill : ∀ medianSize maxCumulativeSize, Keeps I (Core.onPool net now fun validator =>
    TxMemoryPool.fillBlockTemplate net.cur validator medianSize maxCumulativeSize)

namespace Core.CallFrame

variable {bound : Nat} {core : Core} (h : CallFrame net now bound I)
include h

/-- A pop above the blocks that stay takes the last block off, or throws. -/
theorem popBlock (hI : I core) (hroom : bound < core.main.blocks.length) :
    (popBlock net now core).Holds
    (fun _ core' => I core' ∧ core'.main.blocks = core.main.blocks.dropLast) I := by
  unfold Core.popBlock
  rw [get_bind_run]
  have hne : core.main.blocks ≠ [] := ne_nil_of_length_pos (Nat.zero_lt_of_lt hroom)
  rw [getLast?_eq_some_getLast hne]
  -- the pool gets the transactions back first; the chain is still the same then
  have hsave : Keeps (fun saved => I saved ∧ saved.main = core.main)
      (saveTransactions net now (((core.main.blocks.getLast hne).transactions.drop 1).map
        TransactionEntry.tx)) := by
    refine keeps_saveInOrder (fun tx kept => ?_) _
    have hsame : Keeps (fun saved => saved.main = core.main) (onPool net now fun validator =>
        TxMemoryPool.addTxHashed net.cur net.crypto validator now tx kept) :=
      keeps_onPool (fun _ _ h' => h') _
    exact fun saved h' => (h.add tx kept saved h'.1).and (hsame saved h'.2)
  refine ((hsave core ⟨hI, rfl⟩).mono (fun _ _ h' => h') fun _ h' => h'.1).andThen
    fun _ saved hsaved => ?_
  obtain ⟨hsaved, hmain⟩ := hsaved
  have hpopped (id : Hash) : (onMain (unlinkBlock net.crypto id) saved).Holds
      (fun _ core' => core'.main.blocks = core.main.blocks.dropLast) fun _ => True :=
    .mapState ((unlinkBlock_blocks id).mono (fun _ _ hblocks => hmain ▸ hblocks) fun _ _ => trivial)
  exact ((h.pop saved _ hsaved (hmain ▸ hroom)).and (hpopped _)).mono (fun _ _ h' => h')
    fun _ h' => h'.1

theorem popBlocks (count : Nat) (disconnected : List Block) (hI : I core)
    (hroom : bound + count ≤ core.main.blocks.length) :
    (popBlocks net now count disconnected core).Holds (fun _ => I) I := by
  induction count generalizing core disconnected with
  | zero => exact hI
  | succ count ih =>
    unfold popBlocks
    rw [get_bind_run]
    have hne : core.main.blocks ≠ [] := by
      intro hnil
      simp [hnil] at hroom
    rw [getLast?_eq_some_getLast hne]
    refine (h.popBlock hI (by omega)).andThen fun _ popped hpopped => ?_
    refine ih _ hpopped.1 ?_
    rw [hpopped.2, length_dropLast]
    omega

theorem rollbackBlockchainSwitching (originalChain : List Block) {rollbackHeight : Nat}
    (hroom : bound ≤ rollbackHeight) :
    Keeps I (rollbackBlockchainSwitching net now originalChain rollbackHeight) := by
  intro core hI
  have hlen := h.length_le core hI
  refine (h.popBlocks (core.main.blocks.length - rollbackHeight) [] hI (by omega)).andThen
    fun _ popped hpopped => ?_
  exact Keeps.forAllM (fun b _ => h.tryPushBlock b) popped hpopped

theorem eraseAlternatives (hI : I core) (entries : List AlternativeBlock) :
    I (entries.foldl (eraseAlternative net) core) :=
  foldlRecOn _ _ hI fun core hI entry _ => h.erase core entry hI

end Core.CallFrame

end Steps

/-- The main chain starts with the blocks `kept`, and `Q` holds of the alternative blocks. -/
structure Core.Retains (kept : List BlockEntry) (Q : AlternativeBlock → Prop) (core : Core) :
    Prop where
  blocks : kept <+: core.main.blocks
  alternatives : ∀ entry ∈ core.alternativeChains, Q entry

namespace Core.Retains

variable {core : Core}

theorem setPool (core : Core) (pool : TxMemoryPool) (h : core.Retains kept Q) :
    Retains kept Q { core with mempool := pool } :=
  ⟨h.blocks, h.alternatives⟩

theorem mainPushBlock (blockData : Block) (transactions : List Transaction) :
    Keeps (Retains kept Q) (onMain
      (MainChain.pushBlock net.cur net.crypto now net.checkpoints blockData transactions)) := by
  refine .zoom fun core h => ?_
  have hsame : (MainChain.pushBlock net.cur net.crypto now net.checkpoints blockData transactions
      core.main).Holds (fun result main' => result = .added ∨ MainChain.SameStorage core.main main')
        (MainChain.SameStorage core.main) := MainChain.pushBlock_sameStorage
  cases hpush : MainChain.pushBlock net.cur net.crypto now net.checkpoints blockData transactions
    core.main with
  | stuck => trivial
  | thrown main =>
    rw [hpush] at hsame
    refine ⟨?_, h.alternatives⟩
    rw [hsame.blocks]
    exact h.blocks
  | done result main =>
    refine ⟨?_, h.alternatives⟩
    rcases hsame.of_done hpush with rfl | hstorage
    · obtain ⟨block, happended⟩ := pushBlock_added hpush
      rw [happended.blocks]
      exact h.blocks.trans (prefix_append _ _)
    · rw [hstorage.blocks]
      exact h.blocks

theorem callFrame : CallFrame net now kept.length (Retains kept Q) where
  add _ _ := keeps_onPool setPool _
  take _ := keeps_onPool setPool _
  push := mainPushBlock
  limit _ h := ⟨h.blocks, h.alternatives⟩
  length_le _ h := h.blocks.length_le
  pop core _ h hroom := by
    refine .mapState ((unlinkBlock_blocks _).mono ?_ ?_)
    · intro _ main hblocks
      refine ⟨?_, h.alternatives⟩
      rw [hblocks, dropLast_eq_take]
      exact prefix_take_iff.mpr ⟨h.blocks, by omega⟩
    · intro main hblocks
      refine ⟨?_, h.alternatives⟩
      rw [hblocks]
      exact h.blocks
  erase _ _ h := ⟨h.blocks, fun other hother =>
    h.alternatives other (mem_filter.mp hother).1⟩
  idle := keeps_onPool setPool _
  fill _ _ := keeps_onPool setPool _

theorem insertAlternative (h : core.Retains kept Q) {id : Hash} {bei : BlockEntry}
    (hQ : Q (id, bei)) : (insertAlternative net id bei core).Retains kept Q := by
  refine ⟨h.blocks, fun entry hentry => ?_⟩
  rcases mem_append.mp hentry with hold | hnew
  · exact h.alternatives entry hold
  · rw [mem_singleton.mp hnew]
    exact hQ

end Core.Retains

variable {supply : Supply} {M : MainChain → Prop} {I : Core → Prop} {bound : Nat} {core : Core}

/-- The node is supplied, and `I` holds. -/
abbrev Core.Keeping (net : Network) (supply : Supply) (M : MainChain → Prop) (I : Core → Prop)
    (core : Core) : Prop :=
  core.Supplied net supply M ∧ I core

/-- A switch keeps what the calls it makes keep. -/
theorem Core.switch_keeps (hM : MainInvariant net supply M) (hI : CallFrame net now bound I)
    {handle : Block → Program Core Bool}
    (hhandle : ∀ b, supply.Good b → (handle b).Keeps (Keeping net supply M I))
    {altChain : List AlternativeBlock} (hgood : ∀ entry ∈ altChain, supply.Good entry.2.bl)
    (discard : Bool)
    (h : core.Keeping net supply M I) (habove : ∀ front ∈ altChain.head?, bound ≤ front.2.height) :
    (switchToAlternativeBlockchain net now handle altChain discard core).Holds
      (fun _ => Keeping net supply M I) (Keeping net supply M I) := by
  unfold switchToAlternativeBlockchain
  rw [get_bind_run]
  cases altChain with
  | nil => exact h
  | cons front rest =>
    have hroom := habove front rfl
    dsimp only
    split
    · exact h
    refine ((h.1.popBlocks hM _ (forall_mem_nil _)).and
      (hI.popBlocks _ [] h.2 (by omega))).andThen fun disconnected popped hpopped => ?_
    obtain ⟨⟨hpopped, hgoods⟩, hpopped'⟩ := hpopped
    refine ((Supplied.connectAlternatives hM hgood popped hpopped).and
      (hI.connectAlternatives (front :: rest) popped hpopped')).andThen
        fun failed connected hconn => ?_
    have hrollback : (rollbackBlockchainSwitching net now disconnected front.2.height).Keeps
        (Keeping net supply M I) := fun core' h =>
      (Supplied.rollbackBlockchainSwitching hM hgoods _ core' h.1).and
        (hI.rollbackBlockchainSwitching disconnected hroom core' h.2)
    cases failed with
    | cons entry entries =>
      refine (hrollback connected hconn).andThen fun _ restored hrestored => ?_
      exact ⟨hrestored.1.eraseAlternatives _, hI.eraseAlternatives hrestored.2 _⟩
    | nil =>
      have hreadd : (readdDisconnected handle discard disconnected).Keeps
          (Keeping net supply M I) :=
        .ite (fun _ => .pure true) fun _ => .forAllM fun b hb => hhandle b (hgoods b hb)
      refine (hreadd connected hconn).andThen fun kept' readded hreadded => ?_
      cases kept' with
      | true => exact ⟨hreadded.1.eraseAlternatives _, hI.eraseAlternatives hreadded.2 _⟩
      | false => exact (hrollback readded hreadded).andThen fun _ _ hrestored => hrestored

section Handling

-- every block that is accepted is one that may be stored, on a chain that leaves the main chain
-- above the blocks that stay
variable (hM : MainInvariant net supply M) (hI : CallFrame net now bound I)
  (haccept : ∀ {core : Core} {b : Block} {bei : BlockEntry} {parent : AlternativeParent}
    {isACheckpoint : Bool}, core.Supplied net supply M → I core → supply.Good b →
    Accepted net core b (net.crypto.getBlockHash b) bei parent isACheckpoint →
      I (insertAlternative net (net.crypto.getBlockHash b) bei core) ∧
      ∀ front ∈ (parent.altChain ++ [(net.crypto.getBlockHash b, bei)]).head?,
        bound ≤ front.2.height)
include hM hI haccept

variable (fuel : Nat) (h : core.Keeping net supply M I)
include h

/-- `handle_alternative_block` keeps what its steps keep, through all the switches it makes. -/
theorem Core.handleAlternativeBlock_keeps {b : Block}
    (hgood : (∃ bei altChain isACheckpoint, core.checkAlternativeBlock net b
      (net.crypto.getBlockHash b) = .ok (.accept bei altChain isACheckpoint)) → supply.Good b) :
    (handleAlternativeBlock net now fuel b (net.crypto.getBlockHash b) core).Holds
      (fun _ => Keeping net supply M I) (Keeping net supply M I) := by
  induction fuel generalizing b core with
  | zero => trivial
  | succ fuel ih =>
    unfold handleAlternativeBlock
    rw [bind_run]
    cases hcheck : core.checkAlternativeBlock net b (net.crypto.getBlockHash b) with
    | error fault => cases fault <;> simp [Program.read, hcheck, Keeping, h.1, h.2]
    | ok check =>
      have hread : Program.read (fun core => core.checkAlternativeBlock net b
          (net.crypto.getBlockHash b)) core = .done check core := read_ok hcheck
      rw [hread]
      cases check with
      | reject failed => exact h
      | orphaned => exact h
      | accept bei altChain isACheckpoint =>
        have hb := hgood ⟨bei, altChain, isACheckpoint, hcheck⟩
        obtain ⟨hinserted, hchain⟩ := h.1.accepted hb hcheck
        obtain ⟨parent, rfl, hacc⟩ := checkAlternativeBlock_eq_accept hcheck
        obtain ⟨hstored, habove⟩ := haccept h.1 h.2 hb hacc
        simp only [Outcome.andThen_done, bind_run, modify_run, get_run]
        split
        · refine .andThen ?_ fun _ _ h => h
          refine switch_keeps hM hI (fun old hold => ?_) hchain isACheckpoint
            ⟨hinserted, hstored⟩ habove
          exact .bind (fun core' h' => ih h' fun _ => hold) fun _ => .pure _
        · exact ⟨hinserted, hstored⟩

/-- A new block is stored only if it is a supplied one. -/
theorem Core.addNewBlock_keeps {bl : Block} (hadmits : core.Stores net now bl → supply.Good bl) :
    (addNewBlock net now fuel bl core).Holds (fun _ => Keeping net supply M I)
    (Keeping net supply M I) := by
  unfold addNewBlock
  rw [get_bind_run]
  unfold Stores at hadmits
  split
  · exact h
  split
  · rename_i hprev
    rw [if_neg hprev] at hadmits
    exact handleAlternativeBlock_keeps hM hI haccept fuel h hadmits
  · rename_i hprev
    rw [if_pos (not_not.mp hprev)] at hadmits
    refine ((h.1.pushBlock hM hadmits).and (hI.pushBlock bl core h.2)).andThen
      fun result pushed hpushed => ?_
    cases result with
    | added => exact hpushed
    | rejected failed => exact hpushed

theorem Core.call_keeps {call : Call} (hadmits : supply.Admits net now core call) :
    (call.run net now fuel core).Holds (fun _ => Keeping net supply M I)
    (Keeping net supply M I) := by
  cases call with
  | addNewBlock bl =>
    exact (addNewBlock_keeps hM hI haccept fuel h hadmits).andThen fun _ _ h => h
  | handleIncomingTransaction tx kept =>
    refine (h.1.callOther fuel hadmits Call.noConfusion).and ?_
    refine Keeps.bind ?_ (fun _ => .pure _) core h.2
    refine Keeps.get.bind fun core => (Keeps.read _).bind fun _ => ?_
    exact .ite (fun _ => .pure _) fun _ => .ite (fun _ => .pure _) fun _ => .ite (fun _ => .pure _)
      fun _ => hI.add tx kept
  | onIdle => exact (h.1.callOther fuel hadmits Call.noConfusion).and (hI.idle core h.2)
  | getBlockTemplate =>
    refine (h.1.callOther fuel hadmits Call.noConfusion).and ?_
    exact Keeps.bind (Keeps.get.bind fun _ => hI.fill _ _) (fun _ => .pure _) core h.2

end Handling

namespace Core.Supplied

theorem retains_nothing (core : Core) : core.Retains [] fun _ => True :=
  ⟨ nil_prefix, fun _ _ => trivial⟩

variable (hM : MainInvariant net supply M)
include hM

theorem handleAlternativeBlock (fuel : Nat) {b : Block} (h : core.Supplied net supply M)
    (hgood : supply.Good b) :
    (handleAlternativeBlock net now fuel b (net.crypto.getBlockHash b) core).Holds
      (fun _ => Supplied net supply M) (Supplied net supply M) :=
  (handleAlternativeBlock_keeps hM Retains.callFrame
    (fun _ h _ _ => ⟨h.insertAlternative trivial, fun _ _ => Nat.zero_le _⟩) fuel
      ⟨h, retains_nothing core⟩ fun _ => hgood).mono (fun _ _ h' => h'.1) fun _ h' => h'.1

theorem call (fuel : Nat) {call : Call} (h : core.Supplied net supply M)
    (hadmits : supply.Admits net now core call) :
    (call.run net now fuel core).Holds (fun _ => Supplied net supply M) (Supplied net supply M) :=
  (call_keeps hM Retains.callFrame
    (fun _ h _ _ => ⟨h.insertAlternative trivial, fun _ _ => Nat.zero_le _⟩) fuel
    ⟨h, retains_nothing core⟩ hadmits).mono (fun _ _ h' => h'.1) fun _ h' => h'.1

/-- An invariant of the main chain holds in every state a node reaches by admitted calls. -/
theorem of_run (hempty : M .empty)
    (hgen : ∀ {now core}, Initial net now core → supply.Good net.cur.genesisBlock)
    {Ok : Nat → Nat → Core → Call → Prop} {clock : Nat} (hrun : Run net Ok clock core)
    (hblock : ∀ {clock now core bl}, Ok clock now core (.addNewBlock bl) →
      supply.Admits net now core (.addNewBlock bl))
    (htx : ∀ {clock now core tx kept}, Ok clock now core (.handleIncomingTransaction tx kept) →
      supply.Admits net now core (.handleIncomingTransaction tx kept)) :
      core.Supplied net supply M := by
  induction hrun with
  | start hinitial => exact .of_initial hM hempty (hgen hinitial) hinitial
  | @step _ _ _ _ call _ hok hstep ih =>
    obtain ⟨fuel, hleaves⟩ := hstep
    refine (ih.call hM fuel ?_).leaves hleaves
    cases call with
    | addNewBlock bl => exact hblock hok
    | handleIncomingTransaction tx kept => exact htx hok
    | onIdle => trivial
    | getBlockTemplate => trivial

end Core.Supplied

end DarknetCoin
