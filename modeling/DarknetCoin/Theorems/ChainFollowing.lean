import DarknetCoin.Model.BlockchainSynchronizer

/-!
# Consumers follow the chain of the node

A response of the node is an interval of its chain, and the consumers can be at different heights.
After an update without error every consumer agrees with the interval and was told what to undo and
what to add.
-/

namespace DarknetCoin

open Semantics SynchronizationState Program BlockchainInterval

/-- The height behind the interval. -/
def BlockchainInterval.endHeight (interval : BlockchainInterval) : Nat :=
  interval.startHeight + interval.blocks.length

namespace SynchronizationState

/-- The state has the block of the interval at a height. -/
def AgreesAt (state : SynchronizationState) (interval : BlockchainInterval) (height : Nat) : Prop :=
  state.blockchain[height]? = interval.blocks[height - interval.startHeight]?

/-- The state has the blocks of the interval at all heights that both have. -/
def Agrees (state : SynchronizationState) (interval : BlockchainInterval) : Prop :=
  ∀ height, interval.startHeight ≤ height → height < state.blockchain.length →
    height < interval.endHeight → state.AgreesAt interval height

/-- The first height at which the state has another block than the interval. -/
structure DisagreesFirstAt (state : SynchronizationState) (interval : BlockchainInterval)
    (height : Nat) : Prop where
  start_le : interval.startHeight ≤ height
  lt_length : height < state.blockchain.length
  lt_end : height < interval.endHeight
  agrees : ∀ i, interval.startHeight ≤ i → i < height → state.AgreesAt interval i
  disagrees : ¬state.AgreesAt interval height

variable {state : SynchronizationState} {interval : BlockchainInterval}

/-- The three answers: a first difference, new blocks only, or nothing new. -/
theorem checkInterval_cases (hlen : state.blockchain.length < word32)
    (hend : interval.endHeight < word32) :
    (∃ height, state.DisagreesFirstAt interval height ∧ state.checkInterval interval =
      ⟨true, height, true, height⟩) ∨
    (state.Agrees interval ∧ state.blockchain.length < interval.endHeight ∧
      state.checkInterval interval = ⟨false, 0, true, state.blockchain.length⟩) ∨
    (state.Agrees interval ∧ interval.endHeight ≤ state.blockchain.length ∧
      state.checkInterval interval = ⟨false, 0, false, 0⟩) := by
  unfold checkInterval
  rw [← endHeight, Nat.mod_eq_of_lt hlen, Nat.mod_eq_of_lt hend]
  dsimp only
  cases hfirst :
      state.firstDifference interval (min state.blockchain.length interval.endHeight) with
  | some height =>
    obtain ⟨hdiffers, hmem, hbefore⟩ := List.find?_range'_eq_some.mp hfirst
    rw [List.mem_range'_1] at hmem
    refine .inl ⟨height, ⟨hmem.1, by omega, by omega, fun i hi hlt => ?_, ?_⟩, rfl⟩
    · simpa [AgreesAt] using hbefore i hi hlt
    · simpa [AgreesAt] using hdiffers
  | none =>
    have hagrees : state.Agrees interval := by
      intro height hstart hlen hend
      have hsame := List.find?_range'_eq_none.mp hfirst height hstart (by omega)
      simpa [AgreesAt] using hsame
    dsimp only
    split
    · rename_i hlt
      exact .inr (.inl ⟨hagrees, hlt, rfl⟩)
    · rename_i hle
      exact .inr (.inr ⟨hagrees, not_lt.mp hle, rfl⟩)

end SynchronizationState

/-- A call on a consumer. -/
inductive ConsumerCall
  | onBlockchainDetach (height : Nat)
  | onNewBlocks (blocks : List CompleteBlock) (startHeight : Nat)

section

open List

variable {κ : Type} (calls : BlockchainConsumer κ)

/-- A call, and whether the consumer accepts it. -/
def ConsumerCall.perform : ConsumerCall → Program κ Bool
  | onBlockchainDetach height => do
    calls.onBlockchainDetach height
    pure true
  | onNewBlocks blocks startHeight => calls.onNewBlocks blocks startHeight

/-- The calls a consumer in a state is owed when the node sends the blocks of an interval. -/
inductive Expected (state : SynchronizationState) (interval : BlockchainInterval)
    (blocks : List CompleteBlock) : List ConsumerCall → Prop
  | replace {height : Nat} (h : state.DisagreesFirstAt interval height) :
      Expected state interval blocks [.onBlockchainDetach height,
        .onNewBlocks (blocks.drop (height - interval.startHeight)) height]
  | extend (h : state.Agrees interval) (hlt : state.blockchain.length < interval.endHeight) :
      Expected state interval blocks
        [.onNewBlocks (blocks.drop (state.blockchain.length - interval.startHeight))
          state.blockchain.length]
  | nothing (h : state.Agrees interval) (hle : interval.endHeight ≤ state.blockchain.length) :
      Expected state interval blocks []

/-- What an update without an error comes to for a consumer. -/
structure Followed (interval : BlockchainInterval) (blocks : List CompleteBlock)
    (before after : Synchronized κ) : Prop where
  /-- The state has the whole interval. -/
  agrees : ∀ i < interval.blocks.length, after.state.blockchain[interval.startHeight + i]? =
    interval.blocks[i]?
  below : after.state.blockchain.take interval.startHeight =
    before.state.blockchain.take interval.startHeight
  /-- Blocks behind the interval are those the state had, and it had the whole interval too. -/
  tail : interval.endHeight < after.state.blockchain.length →
    after.state = before.state ∧ ∀ i < interval.blocks.length,
      before.state.blockchain[interval.startHeight + i]? = interval.blocks[i]?
  /-- The calls that were made are those the consumer was owed, and it accepted them. -/
  sent : ∃ sent, Expected before.state interval blocks sent ∧
    forAllM (ConsumerCall.perform calls) sent before.consumer = .done true after.consumer

variable {calls} {interval : BlockchainInterval} {blocks : List CompleteBlock} {s : Synchronized κ}
  {outcome : UpdateConsumersResult}

theorem splice_spec {chain : List Hash} {cut : Nat} (hstart : interval.startHeight ≤ cut)
    (hcut : cut ≤ chain.length) (hend : cut ≤ interval.endHeight)
    (hagrees : ∀ i, interval.startHeight ≤ i → i < cut →
      chain[i]? = interval.blocks[i - interval.startHeight]?) : (∀ i < interval.blocks.length,
      (chain.take cut ++ interval.blocks.drop
        (cut - interval.startHeight))[interval.startHeight + i]? = interval.blocks[i]?) ∧
    (chain.take cut ++ interval.blocks.drop (cut - interval.startHeight)).take
    interval.startHeight = chain.take interval.startHeight ∧
    (chain.take cut ++ interval.blocks.drop (cut - interval.startHeight)).length =
    interval.endHeight := by
  have hlen : (chain.take cut).length = cut := length_take_of_le hcut
  unfold endHeight at hend ⊢
  refine ⟨fun i hi => ?_, ?_, ?_⟩
  · by_cases hbelow : interval.startHeight + i < cut
    · rw [getElem?_append_left (by omega), getElem?_take_of_lt hbelow,
        hagrees _ (Nat.le_add_right _ _) hbelow, Nat.add_sub_cancel_left]
    · rw [getElem?_append_right (by omega), getElem?_drop]
      congr 1
      omega
  · rw [take_append_of_le_length (by omega), take_take, min_eq_left hstart]
  · rw [length_append, length_drop]
    omega

theorem onConsumer_eq_done {α : Type} {call : Program κ α} {s' : Synchronized κ} {a : α} :
    onConsumer call s = .done a s' ↔ ∃ consumer, call s.consumer = .done a consumer ∧
    s' = { s with consumer } := by
  rw [onConsumer, zoom_run, Outcome.mapState_eq_done]
  exact exists_congr fun _ => and_congr_right fun _ => eq_comm

theorem startOffset_eq {start height : Nat} (hle : start ≤ height) (hlt : height < word32) :
    (height + word32 - start) % word32 = height - start := by
  rw [show height + word32 - start = height - start + word32 by omega, Nat.add_mod_right]
  exact Nat.mod_eq_of_lt (by omega)

/-- Handing blocks over, to a consumer at a height of the interval. -/
theorem extendConsumer_eq_done {result : CheckResult} {s' : Synchronized κ}
    (hnew : result.hasNewBlocks = true) (hstart : interval.startHeight ≤ result.newBlockHeight)
    (hheight : result.newBlockHeight < word32)
    (h : extendConsumer calls interval blocks result s = .done outcome s')
    (houtcome : outcome ≠ .errorOccurred) :
    ∃ consumer, calls.onNewBlocks (blocks.drop (result.newBlockHeight - interval.startHeight))
        result.newBlockHeight s.consumer = .done true consumer ∧ s' = ⟨consumer, s.state.addBlocks
        (interval.blocks.drop (result.newBlockHeight - interval.startHeight))⟩ := by
  rw [extendConsumer, if_pos hnew] at h
  simp only [startOffset_eq hstart hheight] at h
  obtain ⟨accepted, t, hmade, h⟩ := bind_eq_done.mp h
  obtain ⟨consumer, hcall, rfl⟩ := onConsumer_eq_done.mp hmade
  cases accepted with
  | true =>
    cases h
    exact ⟨consumer, hcall, rfl⟩
  | false =>
    cases h
    exact (houtcome rfl).elim

/-- An update without an error leaves the consumer with the blocks of the interval. -/
theorem followed_of_updateConsumer {before after : Synchronized κ}
    (hstart : interval.startHeight ≤ before.state.blockchain.length)
    (hlen : before.state.blockchain.length < word32) (hend : interval.endHeight < word32)
    (h : updateConsumer calls interval blocks before = .done outcome after)
    (houtcome : outcome ≠ .errorOccurred) : Followed calls interval blocks before after := by
  rw [updateConsumer, get_bind_run] at h
  obtain ⟨_, detached, hdetach, h⟩ := bind_eq_done.mp h
  rcases checkInterval_cases hlen hend with
    ⟨height, hfirst, hcheck⟩ | ⟨hagrees, hlt, hcheck⟩ | ⟨hagrees, hle, hcheck⟩
  · rw [hcheck] at hdetach h
    obtain ⟨_, t, hmade, hdetach⟩ := bind_eq_done.mp hdetach
    obtain ⟨undone, hcall, rfl⟩ := onConsumer_eq_done.mp hmade
    cases hdetach
    obtain ⟨consumer, hnew, rfl⟩ := extendConsumer_eq_done rfl hfirst.start_le
      (hfirst.lt_length.trans hlen) h houtcome
    have hcut := hfirst.lt_length.le
    obtain ⟨hall, hbelow, hlast⟩ := splice_spec hfirst.start_le hcut hfirst.lt_end.le hfirst.agrees
    have hchain : (addBlocks (interval.blocks.drop (height - interval.startHeight))
        (before.state.detach height)).blockchain = before.state.blockchain.take height ++
            interval.blocks.drop (height - interval.startHeight) := by
      simp [addBlocks, detach, Nat.sub_eq_zero_of_le hcut]
    refine ⟨?_, ?_, ?_, _, .replace hfirst, ?_⟩
    · simpa only [hchain] using hall
    · simpa only [hchain] using hbelow
    · intro htail
      rw [hchain, hlast] at htail
      exact (lt_irrefl _ htail).elim
    · have hfirst : ConsumerCall.perform calls (.onBlockchainDetach height) before.consumer =
          .done true undone := by
        rw [ConsumerCall.perform, bind_run, hcall, Outcome.andThen_done, pure_run]
      have hsecond : ConsumerCall.perform calls
          (.onNewBlocks (blocks.drop (height - interval.startHeight)) height) undone =
            .done true consumer := hnew
      rw [forAllM_cons_of_true hfirst, forAllM_cons_of_true hsecond]
      rfl
  · rw [hcheck] at hdetach h
    cases hdetach
    obtain ⟨consumer, hnew, rfl⟩ := extendConsumer_eq_done rfl hstart hlen h houtcome
    obtain ⟨hall, hbelow, hlast⟩ := splice_spec hstart le_rfl hlt.le
      fun i hi hlt' => hagrees i hi hlt' (hlt'.trans hlt)
    rw [take_length] at hall hbelow hlast
    refine ⟨hall, hbelow, fun htail => ?_, _, .extend hagrees hlt, ?_⟩
    · rw [addBlocks, hlast] at htail
      exact (lt_irrefl _ htail).elim
    · have hfirst : ConsumerCall.perform calls (.onNewBlocks
          (blocks.drop (before.state.blockchain.length - interval.startHeight))
          before.state.blockchain.length) before.consumer = .done true consumer := hnew
      rw [forAllM_cons_of_true hfirst]
      rfl
  · rw [hcheck] at hdetach h
    cases hdetach
    cases h
    have hall : ∀ i < interval.blocks.length,
        before.state.blockchain[interval.startHeight + i]? = interval.blocks[i]? := by
      intro i hi
      have hend : interval.startHeight + i < interval.endHeight := Nat.add_lt_add_left hi _
      have hat := hagrees _ (Nat.le_add_right _ i) (hend.trans_le hle) hend
      rwa [AgreesAt, Nat.add_sub_cancel_left] at hat
    exact ⟨hall, rfl, fun _ => ⟨rfl, hall⟩, [], .nothing hagrees hle, rfl⟩

theorem forall_updateConsumer {consumers consumers' : List (Synchronized κ)}
    (h : updateConsumers calls interval blocks consumers = .done outcome consumers')
    (houtcome : outcome ≠ .errorOccurred) :
    List.Forall₂ (fun before after => ∃ result ≠ .errorOccurred,
      updateConsumer calls interval blocks before = .done result after) consumers consumers' := by
  induction consumers generalizing consumers' outcome with
  | nil =>
    cases h
    exact .nil
  | cons first others ih =>
    rw [updateConsumers] at h
    cases hfirst : updateConsumer calls interval blocks first with rw [hfirst] at h
    | done result first' =>
      dsimp only at h
      split at h
      · cases h
        exact (houtcome rfl).elim
      rename_i hres
      cases hothers : updateConsumers calls interval blocks others with rw [hothers] at h
      | done rest others' =>
        cases h
        refine .cons ⟨result, hres, hfirst⟩ (ih hothers ?_)
        rintro rfl
        cases result <;> exact houtcome rfl
      | thrown others' =>
        cases h
      | stuck =>
        cases h
    | thrown first' =>
      cases h
    | stuck =>
      cases h

theorem holds_onConsumer {α : Type} {P : SynchronizationState → Prop} (call : Program κ α)
    (h : P s.state) : (onConsumer call s).Holds (fun _ s' => P s'.state) fun s' => P s'.state := by
  rw [onConsumer, zoom_run]
  cases call s.consumer with
  | done a consumer => exact h
  | thrown consumer => exact h
  | stuck => trivial

/-- However the handing over ends, the state is as before or has the blocks. -/
theorem state_extendConsumer {result : CheckResult} (s : Synchronized κ)
    (hstart : interval.startHeight ≤ result.newBlockHeight)
    (hheight : result.newBlockHeight < word32) :
    (extendConsumer calls interval blocks result s).Holds
      (fun _ s' => s'.state = s.state ∨ s'.state = s.state.addBlocks
        (interval.blocks.drop (result.newBlockHeight - interval.startHeight))) fun s' =>
        s'.state = s.state := by
  rw [extendConsumer]
  split
  · simp only [startOffset_eq hstart hheight]
    refine (holds_onConsumer (P := fun state => state = s.state) _ rfl).andThen
      fun accepted t ht => ?_
    cases accepted with
    | true =>
      rw [← ht]
      exact .inr rfl
    | false => exact .inl ht
  · exact .inl rfl

theorem length_of_updateConsumer (hstart : interval.startHeight ≤ s.state.blockchain.length)
    (hlen : s.state.blockchain.length < word32) (hend : interval.endHeight < word32) :
    (updateConsumer calls interval blocks s).Holds
      (fun _ s' => s'.state.blockchain.length < word32) fun s' => s'.state.blockchain.length <
      word32 := by
  have hadded {state : SynchronizationState} {height : Nat}
      (hstate : state.blockchain.length = height)
      (hfrom : interval.startHeight ≤ height) (hto : height ≤ interval.endHeight) :
      (state.addBlocks (interval.blocks.drop (height - interval.startHeight))).blockchain.length <
        word32 := by
    unfold endHeight at hto hend
    rw [addBlocks, length_append, length_drop]
    omega
  rw [updateConsumer, get_bind_run]
  rcases checkInterval_cases hlen hend with
    ⟨height, hfirst, hcheck⟩ | ⟨hagrees, hlt, hcheck⟩ | ⟨hagrees, hle, hcheck⟩
  · have hdetached : (s.state.detach height).blockchain.length = height := by
      rw [detach, length_append, length_take_of_le hfirst.lt_length.le,
        length_replicate, Nat.sub_eq_zero_of_le hfirst.lt_length.le, Nat.add_zero]
    have hheight := hfirst.lt_length.trans hlen
    rw [hcheck]
    refine .andThen (Q := fun _ t => t.state = s.state.detach height) ?_ fun _ t ht => ?_
    · rw [detachConsumer]
      refine ((holds_onConsumer (P := fun state => state = s.state) _ rfl).mono (fun _ _ => id)
        fun t ht => ?_).andThen fun _ t ht => ?_
      · rwa [ht]
      · exact congrArg (detach height) ht
    · refine (state_extendConsumer t hfirst.start_le hheight).mono (fun _ s' hs' => ?_)
        fun s' hs' => ?_
      · rcases hs' with hs' | hs' <;> rw [hs', ht]
        · rwa [hdetached]
        · exact hadded hdetached hfirst.start_le hfirst.lt_end.le
      · rwa [hs', ht, hdetached]
  · rw [hcheck]
    change (extendConsumer calls interval blocks
      ⟨false, 0, true, s.state.blockchain.length⟩ s).Holds _ _
    refine (state_extendConsumer s hstart hlen).mono (fun _ s' hs' => ?_) fun s' hs' => ?_
    · rcases hs' with hs' | hs' <;> rw [hs']
      · exact hlen
      · exact hadded rfl hstart hlt.le
    · rwa [hs']
  · rw [hcheck]
    exact hlen

theorem length_of_updateConsumers {consumers consumers' : List (Synchronized κ)}
    (hstart : ∀ s ∈ consumers, interval.startHeight ≤ s.state.blockchain.length)
    (hlen : ∀ s ∈ consumers, s.state.blockchain.length < word32)
    (hend : interval.endHeight < word32)
    (h : (updateConsumers calls interval blocks consumers).Leaves consumers') :
    ∀ s ∈ consumers', s.state.blockchain.length < word32 := by
  induction consumers generalizing consumers' with
  | nil =>
    cases h
    exact hlen
  | cons first others ih =>
    obtain ⟨hfirstStart, hstart⟩ := forall_mem_cons.mp hstart
    obtain ⟨hfirstLength, hlen⟩ := forall_mem_cons.mp hlen
    have hupdated : (updateConsumer calls interval blocks first).Holds
        (fun _ s' => s'.state.blockchain.length < word32) fun s' =>
          s'.state.blockchain.length < word32 :=
      length_of_updateConsumer hfirstStart hfirstLength hend
    rw [updateConsumers] at h
    cases hfirst : updateConsumer calls interval blocks first with
    | done result first' =>
      rw [hfirst] at h hupdated
      dsimp only at h
      split at h
      · cases h
        exact forall_mem_cons.mpr ⟨hupdated, hlen⟩
      cases hothers : updateConsumers calls interval blocks others with rw [hothers] at h
      | done rest others' =>
        cases h
        refine forall_mem_cons.mpr ⟨hupdated, ih hstart hlen ?_⟩
        rw [hothers]
        exact .done _ _
      | thrown others' =>
        cases h
        refine forall_mem_cons.mpr ⟨hupdated, ih hstart hlen ?_⟩
        rw [hothers]
        exact .thrown _
      | stuck =>
        cases h
    | thrown first' =>
      rw [hfirst] at h hupdated
      cases h
      exact forall_mem_cons.mpr ⟨hupdated, hlen⟩
    | stuck =>
      rw [hfirst] at h
      cases h

end

/-- What the node sends. -/
structure GetBlocksResponse where
  startHeight : Nat
  newBlocks : List CompleteBlock

/-- The interval of a response. -/
def GetBlocksResponse.interval (response : GetBlocksResponse) : BlockchainInterval :=
  ⟨response.startHeight, response.newBlocks.map CompleteBlock.blockHash⟩

section

variable {κ : Type} (calls : BlockchainConsumer κ)

/-- The response starts at a height that every consumer has reached, and its heights are words. -/
structure GetBlocksResponse.Suits (response : GetBlocksResponse)
    (consumers : List (Synchronized κ)) : Prop where
  start_le : ∀ s ∈ consumers, response.startHeight ≤ s.state.blockchain.length
  end_lt : response.startHeight + response.newBlocks.length < word32

/-- A sequence of responses, each with the consumers it leaves. -/
def Responded : List (Synchronized κ) → List (GetBlocksResponse × List (Synchronized κ)) → Prop
  | _, [] => True
  | before, (response, after) :: rest => response.Suits before ∧
    (processBlocks calls response.startHeight response.newBlocks before).Leaves after ∧
      Responded after rest

/-- Every response of the sequence for which no error is reported is followed by all consumers. -/
def AllFollowed : List (Synchronized κ) → List (GetBlocksResponse × List (Synchronized κ)) → Prop
  | _, [] => True
  | before, (response, after) :: rest =>
    (∀ result ≠ UpdateConsumersResult.errorOccurred,
      processBlocks calls response.startHeight response.newBlocks before = .done result after →
        List.Forall₂ (Followed calls response.interval response.newBlocks) before after) ∧
      AllFollowed after rest

/-- Whatever the responses are, after every one for which no error is reported each consumer has the
interval, and was told what it had to be told. -/
theorem consumers_follow {consumers : List (Synchronized κ)}
    {responses : List (GetBlocksResponse × List (Synchronized κ))}
    (hlength : ∀ s ∈ consumers, s.state.blockchain.length < word32)
    (h : Responded calls consumers responses) : AllFollowed calls consumers responses := by
  induction responses generalizing consumers with
  | nil => trivial
  | cons step rest ih =>
    obtain ⟨response, after⟩ := step
    obtain ⟨hsuits, hleaves, hrest⟩ := h
    have hend : response.interval.endHeight < word32 := by
      simpa [GetBlocksResponse.interval, endHeight] using hsuits.end_lt
    refine ⟨fun result hres hdone => ?_, ih ?_ hrest⟩
    · have hupdates := forall_updateConsumer hdone hres
      clear hdone hleaves hrest ih
      induction hupdates with
      | nil => exact .nil
      | cons hupdate _ ih =>
        obtain ⟨outcome, houtcome, hupdate⟩ := hupdate
        obtain ⟨hfirstStart, hstart⟩ := List.forall_mem_cons.mp hsuits.start_le
        obtain ⟨hfirstLength, hlength⟩ := List.forall_mem_cons.mp hlength
        refine .cons ?_ (ih hlength ⟨hstart, hsuits.end_lt⟩)
        exact followed_of_updateConsumer hfirstStart hfirstLength hend hupdate houtcome
    · exact length_of_updateConsumers hsuits.start_le hlength hend hleaves

end

/-- A consumer that accepts everything and keeps it. -/
def recorder : BlockchainConsumer (List ConsumerCall) where
  onBlockchainDetach height := modify fun calls => calls ++ [.onBlockchainDetach height]
  onNewBlocks blocks startHeight := do
    modify fun calls => calls ++ [.onNewBlocks blocks startHeight]
    pure true

/-- Two consumers, one of which has blocks of another branch, are given two blocks. -/
def branchResponse : GetBlocksResponse := ⟨1, [⟨5, none, []⟩, ⟨6, none, []⟩]⟩

theorem consumers_follow_branch :
    let before : List (Synchronized (List ConsumerCall)) := [⟨[], ⟨[1, 5, 3, 4]⟩⟩, ⟨[], ⟨[1]⟩⟩]
    let after : List (Synchronized (List ConsumerCall)) :=
      [⟨[.onBlockchainDetach 2, .onNewBlocks [⟨6, none, []⟩] 2], ⟨[1, 5, 6]⟩⟩,
        ⟨[.onNewBlocks [⟨5, none, []⟩, ⟨6, none, []⟩] 1], ⟨[1, 5, 6]⟩⟩]
    Responded recorder before [(branchResponse, after)] ∧
      AllFollowed recorder before [(branchResponse, after)] := by
  intro before after
  have hresponded : Responded recorder before [(branchResponse, after)] := by
    refine ⟨⟨by simp [before, branchResponse], by decide⟩, ?_, trivial⟩
    exact Outcome.Leaves.done UpdateConsumersResult.addedNewBlocks after
  exact ⟨hresponded, consumers_follow recorder (by simp [before, word32]) hresponded⟩

end DarknetCoin
