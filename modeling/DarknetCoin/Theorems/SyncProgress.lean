import DarknetCoin.Model.ProtocolHandler

/-!
# A synchronising connection has a next step

When the answer to a request was handled, the connection leaves the synchronising state or the next
request was sent. A chain whose last known block has the claimed total height parks the connection,
and so does a complete list of known blocks while blocks are still requested.
-/

namespace DarknetCoin

open Semantics

variable {σ : Type}

/-- The request asks for more blocks or for more of the identifiers of blocks. -/
def PeerMessage.Fetches : PeerMessage → Prop
  | requestChain _ => True
  | requestGetObjects _ => True
  | _ => False

/-- An answer to what a synchronising connection requests. -/
inductive SyncResponse
  | chainEntry (arg : ChainEntryResponse)
  | getObjects (arg : ObjectsResponse)

namespace Connection

/-- The connection needs no step of its own any more, or it has made a request after those
`before`. -/
def Proceeds (before : List PeerMessage) (c : Connection σ) : Prop :=
  c.context.state ∈ [ConnectionState.shutdown, .idle, .normal] ∨
    ∃ requests, c.sent = before ++ requests ∧ ∃ request ∈ requests, request.Fetches

/-- The blocks are among those that are requested, with as many transactions as they name, the
second of them is not known, and none of the requested blocks is missing. -/
def Delivered (core : ICore σ) (parse : List UInt8 → Option Block) (crypto : Crypto) (s : σ) :
    Nat → Finset Hash → List BlockCompleteEntry → Prop
  | _, requested, [] => requested = ∅
  | count, requested, entry :: entries => ∃ b, parse entry.block = some b ∧
      ¬(count + 1 = 2 && core.haveBlock (crypto.getBlockHash b) s) ∧
        crypto.getBlockHash b ∈ requested ∧ b.transactionHashes.length = entry.txs.length ∧
      Delivered core parse crypto s (count + 1) (requested.erase (crypto.getBlockHash b)) entries

/-- The core takes the transactions and the blocks one after the other, with what the other
connections do in between, and the node is not stopped. -/
def Taken (core : ICore σ) (others : Nat → σ × Bool → σ × Bool) :
    Nat → List BlockCompleteEntry → Connection σ → Prop
  | _, [], c => c.node.stop = false
  | i, entry :: entries, c => c.node.stop = false ∧ ∃ c₁ bvc c₂,
      passTransactions core entry.txs c = .done true c₁ ∧
      pass entry.block (core.handleIncomingBlockBlob entry.block) c₁ = .done bvc c₂ ∧
      ¬(bvc.verifivationFailed || bvc.markedAsOrphaned) ∧ ¬bvc.alreadyExists ∧
      Taken core others (i + 1) entries (c₂.yield (others i))

end Connection

namespace SyncResponse

variable (core : ICore σ) (parse : List UInt8 → Option Block) (crypto : Crypto)
  (others : Nat → σ × Bool → σ × Bool)

/-- The handler of an answer. -/
def handle : SyncResponse → Program (Connection σ) Unit
  | chainEntry arg => Program.modify (Connection.handleResponseChainEntry core arg)
  | getObjects arg => Connection.handleResponseGetObjects core parse crypto others arg

/-- Nothing is left to be requested, but the heights are not those of a peer that has no more
blocks, or blocks that were requested have not arrived. -/
def Parks (c : Connection σ) : SyncResponse → Prop
  | chainEntry arg => c.node.stop = false ∧ c.context.neededObjects = [] ∧ arg.blockIds ≠ [] ∧
      (∀ id ∈ arg.blockIds, core.haveBlock id c.node.core = true) ∧ arg.totalHeight ≠ 0 ∧
      (arg.startHeight + UInt32.ofNat arg.blockIds.length - 1 = arg.totalHeight ∨
        arg.startHeight + UInt32.ofNat arg.blockIds.length - 1 = arg.totalHeight - 1 ∧
          c.context.requestedObjects ≠ ∅)
  | getObjects arg => c.context.neededObjects = [] ∧
      c.context.lastResponseHeight = arg.currentBlockchainHeight ∧ arg.currentBlockchainHeight ≠ 0 ∧
      Connection.Delivered core parse crypto c.node.core 0 c.context.requestedObjects arg.blocks ∧
      Connection.Taken core others 0 arg.blocks { c with
        context.remoteBlockchainHeight := arg.currentBlockchainHeight
        context.requestedObjects := ∅ }

end SyncResponse

theorem eq_or_eq_of_height {last total : UInt32} (hle : ¬last > total) (hlt : ¬last < total - 1) :
    total ≠ 0 ∧ (last = total ∨ last = total - 1) := by
  rw [gt_iff_lt, UInt32.lt_iff_toNat_lt] at hle
  rw [UInt32.lt_iff_toNat_lt, UInt32.toNat_sub] at hlt
  simp only [← UInt32.toNat_inj, ne_eq, UInt32.toNat_sub]
  have hbound := total.toNat_lt
  have hone : (1 : UInt32).toNat = 1 := rfl
  have hzero : (0 : UInt32).toNat = 0 := rfl
  omega

/-- The last height is not below the one it is compared with. -/
theorem height_of_eq_or_eq {last total : UInt32} (hpositive : total ≠ 0)
    (h : last = total ∨ last = total - 1) :
    ¬last > total ∧ ¬last < total - 1 ∧ (last = total → last ≠ total - 1) := by
  rw [gt_iff_lt, UInt32.lt_iff_toNat_lt, UInt32.lt_iff_toNat_lt, UInt32.toNat_sub]
  simp only [← UInt32.toNat_inj, ne_eq, UInt32.toNat_sub] at *
  have hbound := total.toNat_lt
  have hone : (1 : UInt32).toNat = 1 := rfl
  have hzero : (0 : UInt32).toNat = 0 := rfl
  omega

namespace Connection

variable {core : ICore σ} {parse : List UInt8 → Option Block} {crypto : Crypto}
  {others : Nat → σ × Bool → σ × Bool} {c : Connection σ} {before : List PeerMessage}

theorem proceeds_of_state (h : c.context.state ∈ [.shutdown, .idle, .normal]) :
    c.Proceeds before := Or.inl h

theorem proceeds_post {request : PeerMessage} (h : request.Fetches) :
    (c.post request).Proceeds c.sent :=
  .inr ⟨[request], rfl, request, List.mem_singleton_self request, h⟩

/-- The last condition of `request_missing_objects` is reached and fails. -/
structure Stops (c : Connection σ) : Prop where
  needed : c.context.neededObjects = []
  notBelow : ¬c.context.lastResponseHeight < c.context.remoteBlockchainHeight - 1
  notLast : ¬(c.context.lastResponseHeight = c.context.remoteBlockchainHeight - 1 ∧
    c.context.requestedObjects = ∅)

theorem context_onConnectionSynchronized : (onConnectionSynchronized core c).context =
    c.context := by
  unfold onConnectionSynchronized
  split <;> rfl

theorem proceeds_requestMissingObjects (checkHavingBlocks : Bool)
    (h : c.Stops → c.context.state ∈ [.shutdown, .idle, .normal]) :
    (requestMissingObjects core checkHavingBlocks c).Proceeds c.sent := by
  unfold requestMissingObjects
  split
  · exact proceeds_post trivial
  rename_i hneeded
  split
  · exact proceeds_post trivial
  rename_i hbelow
  split
  · apply proceeds_of_state
    rw [context_onConnectionSynchronized]
    simp [setState]
  · next hlast =>
    rw [not_not] at hneeded
    exact proceeds_of_state (h ⟨hneeded, hbelow, fun hend => hlast ⟨hend.1, hneeded, hend.2⟩⟩)

/-- A synchronising connection that has sent nothing does not proceed. -/
theorem not_proceeds (hstate : c.context.state = .synchronizing) : ¬c.Proceeds c.sent := by
  rintro (hleft | ⟨requests, hsent, request, hmem, -⟩)
  · simp [hstate] at hleft
  · rw [List.self_eq_append_right.mp hsent] at hmem
    cases hmem

theorem requestMissingObjects_of_stops {checkHavingBlocks : Bool} (h : c.Stops) :
    requestMissingObjects core checkHavingBlocks c = c := by
  rw [requestMissingObjects, if_neg (not_not.mpr h.needed), if_neg h.notBelow,
    if_neg fun hend => h.notLast ⟨hend.1, hend.2.2⟩]

theorem stop_requestMissingObjects {checkHavingBlocks : Bool} :
    (requestMissingObjects core checkHavingBlocks c).node.stop = c.node.stop := by
  unfold requestMissingObjects onConnectionSynchronized requestMissingPoolTransactions
  split_ifs <;> rfl

/-- A chain entry leaves a connection without progress exactly if it parks it. -/
theorem handleResponseChainEntry_iff {arg : ChainEntryResponse}
    (hstate : c.context.state = .synchronizing) :
    ((handleResponseChainEntry core arg c).node.stop = false →
        (handleResponseChainEntry core arg c).Proceeds c.sent) ↔
      ¬(SyncResponse.chainEntry arg).Parks core parse crypto others c := by
  constructor
  · rintro hproceeds ⟨hstop, hneeded, hids, hknown, hpositive, hheights⟩
    obtain ⟨first, rest, hcons⟩ := List.exists_cons_of_ne_nil hids
    obtain ⟨hle, hlt, hne⟩ := height_of_eq_or_eq hpositive (hheights.imp_right And.left)
    have hnew : arg.blockIds.filter (fun id => !core.haveBlock id c.node.core) = [] := by
      simpa using hknown
    have hfirst : core.haveBlock first c.node.core = true := hknown first (by simp [hcons])
    -- the handler only takes note of the heights
    have hhandled : handleResponseChainEntry core arg c = { c with
        context.remoteBlockchainHeight := arg.totalHeight
        context.lastResponseHeight := arg.startHeight + UInt32.ofNat arg.blockIds.length - 1 } := by
      have hstops : Stops { c with
          context.remoteBlockchainHeight := arg.totalHeight
          context.lastResponseHeight := arg.startHeight + UInt32.ofNat arg.blockIds.length - 1 } :=
        ⟨hneeded, hlt, fun hend => hheights.elim (fun heq => hne heq hend.1) fun hboth =>
          hboth.2 hend.2⟩
      rw [← @requestMissingObjects_of_stops _ core _ false hstops]
      simp only [handleResponseChainEntry, hcons, hfirst, Bool.not_true,
        Bool.false_eq_true, if_false]
      rw [← hcons, hnew, List.append_nil, if_neg hle]
    rw [hhandled] at hproceeds
    exact not_proceeds (c := { c with
      context.remoteBlockchainHeight := arg.totalHeight
      context.lastResponseHeight := arg.startHeight + UInt32.ofNat arg.blockIds.length - 1 })
      hstate (hproceeds hstop)
  · intro h
    unfold handleResponseChainEntry
    split
    · exact fun _ => proceeds_of_state (by simp [setState])
    rename_i first rest hids
    split
    · exact fun _ => proceeds_of_state (by simp [setState])
    intro hstop
    apply proceeds_requestMissingObjects
    intro hstops
    by_cases hlast : arg.startHeight + UInt32.ofNat arg.blockIds.length - 1 > arg.totalHeight
    · simp [hlast]
    -- the heights pass the first check, so the answer parks the connection
    obtain ⟨hneeded, hknown⟩ := List.append_eq_nil_iff.mp hstops.needed
    obtain ⟨hpositive, hheights⟩ := eq_or_eq_of_height hlast hstops.notBelow
    rw [stop_requestMissingObjects] at hstop
    refine (h ⟨hstop, hneeded, by simp [hids], ?_, hpositive, ?_⟩).elim
    · simpa using hknown
    · exact hheights.imp_right fun hend => ⟨hend, fun hnone => hstops.notLast ⟨hend, hnone⟩⟩

/-- The connection is closed, or it waits without a request. -/
def GivenUp (c : Connection σ) : Prop :=
  c.context.state = .shutdown ∨
    c.context.state = .idle ∧ c.context.neededObjects = [] ∧ c.context.requestedObjects = ∅

theorem givenUp_setState : (c.setState .shutdown).GivenUp := .inl rfl

theorem givenUp_setIdle : c.setIdle.GivenUp := .inr ⟨rfl, rfl, rfl⟩

theorem GivenUp.proceeds (h : c.GivenUp) : c.Proceeds before := by
  apply proceeds_of_state
  rcases h with hstate | ⟨hstate, -⟩ <;> simp [hstate]

variable (entries : List BlockCompleteEntry)

/-- The checks give the connection up, or they strike the blocks off the requested ones; with none
left, if and only if all are delivered. -/
theorem checkObjects_spec (count : Nat) :
    (∃ c', checkObjects core parse crypto count entries c = (false, c') ∧ c'.GivenUp ∧
      ¬Delivered core parse crypto c.node.core count c.context.requestedObjects entries) ∨
    ∃ requested, checkObjects core parse crypto count entries c =
        (true, { c with context.requestedObjects := requested }) ∧
      (requested = ∅ ↔
        Delivered core parse crypto c.node.core count c.context.requestedObjects entries) := by
  induction entries generalizing count c with
  | nil => exact .inr ⟨c.context.requestedObjects, rfl, .rfl⟩
  | cons entry entries ih =>
    unfold checkObjects
    cases hparse : parse entry.block with
    | none => exact .inl ⟨_, rfl, givenUp_setState, fun ⟨b, hb, _⟩ => by cases hparse.symm.trans hb⟩
    | some b =>
      -- the block of the delivery is the one that was parsed
      have hcons {p : Block → Prop} : (∃ b, parse entry.block = some b ∧ p b) ↔ p b := by
        simp [hparse]
      simp only [Delivered, hcons]
      split
      · next hsecond => exact .inl ⟨_, rfl, givenUp_setIdle, fun h => h.1 hsecond⟩
      rename_i hsecond
      split
      · next hrequested => exact .inl ⟨_, rfl, givenUp_setState, fun h => hrequested h.2.1⟩
      rename_i hrequested
      split
      · next hlen => exact .inl ⟨_, rfl, givenUp_setState, fun h => hlen h.2.2.1⟩
      rename_i hlen
      rcases @ih { c with
        context.requestedObjects :=
          c.context.requestedObjects.erase (crypto.getBlockHash b) } (count + 1)
        with ⟨c', hcheck, hgiven, hnot⟩ | ⟨requested, hcheck, hdelivered⟩
      · exact .inl ⟨c', hcheck, hgiven, fun h => hnot h.2.2.2⟩
      · refine .inr ⟨requested, hcheck, hdelivered.trans ⟨fun h => ?_, fun h => h.2.2.2⟩⟩
        exact ⟨hsecond, not_not.mp hrequested, not_not.mp hlen, h⟩

/-- The connection is as it was, whatever has become of the node. -/
def Unmoved (c c' : Connection σ) : Prop := c'.context = c.context ∧ c'.sent = c.sent

theorem pass_unmoved {α : Type} (blob : List UInt8) (call : Program σ α) :
    (pass blob call).Keeps (Unmoved c) :=
  .zoom fun _ h => Outcome.holds_true.mono (fun _ _ _ => h) fun _ _ => h

theorem passTransactions_unmoved (txs : List (List UInt8)) :
    (passTransactions core txs).Keeps (Unmoved c) :=
  .forAllM fun tx _ => (pass_unmoved tx _).bind fun _ => .pure _

/-- The blocks are processed to their end, or the connection is given up. If the node is not
stopped, the end is reached if and only if the core takes all blocks. -/
theorem processObjects_spec (i : Nat) {c' : Connection σ}
    (h : c.Unmoved c') : (processObjects core others i entries c').Holds
      (fun valid final => if valid then c.Unmoved final ∧
          (final.node.stop = false → Taken core others i entries c')
          else final.GivenUp) fun _ => True := by
  induction entries generalizing i c' with
  | nil => exact ⟨h, id⟩
  | cons entry entries ih =>
    unfold processObjects
    rw [Program.get_bind_run]
    split
    · next hstop => exact ⟨h, fun hrunning => by simp [hstop] at hrunning⟩
    rename_i hstop
    have hpass := @passTransactions_unmoved _ core c entry.txs c' h
    rw [Program.bind_run]
    cases htxs : passTransactions core entry.txs c' with rw [htxs] at hpass
    | thrown c₁ => trivial
    | stuck => trivial
    | done valid c₁ =>
      rw [Outcome.andThen_done]
      split
      · rename_i hvalid
        have hpassed := pass_unmoved entry.block (core.handleIncomingBlockBlob entry.block) c₁ hpass
        rw [Program.bind_run]
        cases hblock : pass entry.block (core.handleIncomingBlockBlob entry.block) c₁ with
            rw [hblock] at hpassed
        | thrown c₂ => trivial
        | stuck => trivial
        | done bvc c₂ =>
          rw [Outcome.andThen_done]
          split
          · exact givenUp_setState
          rename_i hverified
          split
          · exact givenUp_setIdle
          rename_i hnew
          have hnext := @ih (i + 1) (c₂.yield (others i)) hpassed
          refine hnext.mono (fun valid final hfinal => ?_) fun _ _ => trivial
          cases valid with
          | false => exact hfinal
          | true =>
            refine ⟨hfinal.1, fun hrunning => ⟨Bool.eq_false_iff.mpr hstop, c₁, bvc, c₂, ?_, hblock,
              hverified, hnew, hfinal.2 hrunning⟩⟩
            rw [htxs, hvalid]
      · exact givenUp_setState

theorem processObjects_of_taken (i : Nat) {c' : Connection σ} (h : c.Unmoved c')
    (htaken : Taken core others i entries c') : ∃ final, processObjects core others i entries c' =
      .done true final ∧ c.Unmoved final ∧ final.node.stop = false := by
  induction entries generalizing i c' with
  | nil => exact ⟨c', rfl, h, htaken⟩
  | cons entry entries ih =>
    obtain ⟨hstop, c₁, bvc, c₂, htxs, hblock, hverified, hnew, hrest⟩ := htaken
    have hpass := @passTransactions_unmoved _ core c entry.txs c' h
    rw [htxs] at hpass
    have hpassed := pass_unmoved entry.block (core.handleIncomingBlockBlob entry.block) c₁ hpass
    rw [hblock] at hpassed
    obtain ⟨final, hprocess, hfinal⟩ := @ih (i + 1) (c₂.yield (others i)) hpassed hrest
    refine ⟨final, ?_, hfinal⟩
    rw [processObjects, Program.get_bind_run, if_neg (by simp [hstop]), Program.bind_run, htxs,
      Outcome.andThen_done, if_pos rfl, Program.bind_run, hblock, Outcome.andThen_done,
        if_neg hverified,
      if_neg hnew, Program.modify_bind_run, hprocess]

/-- All blocks that were requested have arrived, and the next ones are requested if the connection
is synchronising; or the connection is given up. -/
theorem handleResponseGetObjects_spec (arg : ObjectsResponse) :
    (handleResponseGetObjects core parse crypto others arg c).Holds (fun _ c' => c'.GivenUp ∨
      ∃ c₁ : Connection σ, c₁.context = { c.context with
          remoteBlockchainHeight := arg.currentBlockchainHeight, requestedObjects := ∅ } ∧
        c₁.sent = c.sent ∧ ¬c.context.lastResponseHeight > arg.currentBlockchainHeight ∧
        Delivered core parse crypto c.node.core 0 c.context.requestedObjects arg.blocks ∧
        (c₁.node.stop = false → Taken core others 0 arg.blocks { c with
          context.remoteBlockchainHeight := arg.currentBlockchainHeight
          context.requestedObjects := ∅ }) ∧
        c' = if !c₁.node.stop && c.context.state = .synchronizing then
          requestMissingObjects core true c₁
          else c₁) fun _ => True := by
  unfold handleResponseGetObjects
  split
  · exact .inl givenUp_setState
  rename_i hheight
  rcases checkObjects_spec arg.blocks 0
    with ⟨c', hcheck, hgiven, -⟩ | ⟨requested, hcheck, hdelivered⟩
  · rw [hcheck]
    exact .inl hgiven
  rw [hcheck]
  dsimp only
  split
  · exact .inl givenUp_setState
  rename_i hnone
  obtain rfl := not_not.mp hnone
  refine (processObjects_spec arg.blocks 0 ⟨rfl, rfl⟩).andThen fun valid c₁ h₁ => ?_
  cases valid with
  | false => exact .inl h₁
  | true =>
    obtain ⟨⟨hcontext, hsent⟩, htaken⟩ := h₁
    refine .inr ⟨c₁, hcontext, hsent, hheight, hdelivered.mp rfl, htaken, ?_⟩
    dsimp only
    rw [hcontext]

theorem proceeds_handleResponseGetObjects {arg : ObjectsResponse}
    (hstate : c.context.state = .synchronizing)
    (h : ¬(SyncResponse.getObjects arg).Parks core parse crypto others c) :
    (handleResponseGetObjects core parse crypto others arg c).Holds
      (fun _ c' => c'.node.stop = false → c'.Proceeds c.sent) fun _ => True := by
  refine (handleResponseGetObjects_spec arg).mono (fun _ c' hspec hstop => ?_) fun _ _ => trivial
  rcases hspec with hgiven | ⟨c₁, hcontext, hsent, hheight, hdelivered, htaken, rfl⟩
  · exact hgiven.proceeds
  cases hrunning : c₁.node.stop with
  | true => simp [hrunning] at hstop
  | false =>
    rw [← hsent]
    simp only [hstate]
    refine proceeds_requestMissingObjects true fun hstops => ?_
    obtain ⟨hneeded, hbelow, hlast⟩ := hstops
    rw [hcontext] at hneeded hbelow hlast
    -- the heights are equal, since nothing is requested any more
    obtain ⟨hpositive, hequal | hend⟩ := eq_or_eq_of_height hheight hbelow
    · exact (h ⟨hneeded, hequal, hpositive, hdelivered, htaken hrunning⟩).elim
    · exact (hlast ⟨hend, rfl⟩).elim

/-- An answer that parks the connection is handled to the end without a request. -/
theorem handleResponseGetObjects_of_parks {arg : ObjectsResponse}
    (hstate : c.context.state = .synchronizing)
    (h : (SyncResponse.getObjects arg).Parks core parse crypto others c) :
    ∃ c', handleResponseGetObjects core parse crypto others arg c = .done () c' ∧
      c'.node.stop = false ∧ ¬c'.Proceeds c.sent := by
  obtain ⟨hneeded, hequal, hpositive, hdelivered, htaken⟩ := h
  obtain ⟨hle, hlt, hne⟩ := height_of_eq_or_eq hpositive (.inl hequal)
  let checked : Connection σ :=
    { c with
      context.remoteBlockchainHeight := arg.currentBlockchainHeight
      context.requestedObjects := ∅ }
  have hcheck : checkObjects core parse crypto 0 arg.blocks
      { c with context.remoteBlockchainHeight := arg.currentBlockchainHeight } =
          (true, checked) := by
    rcases @checkObjects_spec _ core parse crypto
      { c with context.remoteBlockchainHeight := arg.currentBlockchainHeight } arg.blocks 0 with
      ⟨-, -, -, hnot⟩ | ⟨requested, hcheck, hexact⟩
    · exact absurd hdelivered hnot
    · rw [hcheck, hexact.mpr hdelivered]
  obtain ⟨final, hprocess, ⟨hcontext, hsent⟩, hrunning⟩ :=
    @processObjects_of_taken _ core others checked arg.blocks 0 checked ⟨rfl, rfl⟩ htaken
  have hstops : final.Stops := by
    refine ⟨hcontext ▸ hneeded, hcontext ▸ hlt, fun hend => ?_⟩
    rw [hcontext] at hend
    exact hne hequal hend.1
  have hsame : final.context.state = .synchronizing := hcontext ▸ hstate
  refine ⟨final, ?_, hrunning, ?_⟩
  · rw [handleResponseGetObjects, if_neg hle, hcheck]
    dsimp only
    rw [if_neg (not_not.mpr rfl), processResponse, Program.bind_run, hprocess, Outcome.andThen_done,
      if_pos rfl, Program.modify_run, if_pos (by simp [hrunning, hsame]),
      requestMissingObjects_of_stops hstops]
  · rw [show c.sent = final.sent from hsent.symm]
    exact not_proceeds hsame

/-- When the answer to a synchronising connection has been handled, the connection has a next step,
if and only if the answer is not one that parks it. -/
theorem synchronizing_proceeds (core : ICore σ) (parse : List UInt8 → Option Block)
    (crypto : Crypto)
    (others : Nat → σ × Bool → σ × Bool) (c : Connection σ) (response : SyncResponse)
    (hstate : c.context.state = .synchronizing) :
    (response.handle core parse crypto others c).Holds
        (fun _ c' => c'.node.stop = false → c'.Proceeds c.sent) (fun _ => True) ↔
      ¬response.Parks core parse crypto others c := by
  cases response with
  | chainEntry arg => exact handleResponseChainEntry_iff hstate
  | getObjects arg =>
    refine ⟨fun hholds hparks => ?_, proceeds_handleResponseGetObjects hstate⟩
    obtain ⟨c', hdone, hstop, hnot⟩ := handleResponseGetObjects_of_parks hstate hparks
    exact hnot (hholds.of_done hdone hstop)

/-- A core that is a list of blocks and takes what it is given. -/
def listCore : ICore (List Hash) where
  haveBlock id ids := id ∈ ids
  buildSparseChain ids := ids
  getPoolTransactions _ := []
  handleIncomingTx _ _ := pure {}
  handleIncomingBlockBlob _ := pure { addedToMainChain := true }
  onSynchronized ids := ids
  getBlockIdByHeight _ ids := ids.headD 0
  handleGetObjects _ _ _ := (true, ⟨[], 0, [], []⟩)
  findBlockchainSupplement _ _ ids := ⟨0, 0, ids⟩
  getPoolChanges _ _ := []

/-- A connection that has asked a peer for its chain; the node has one block. -/
def waiting : Connection (List Hash) where
  context := { state := .synchronizing }
  node := ⟨[1], false, false, 1⟩

theorem synchronizing_proceeds_unknown_block : waiting.context.state = .synchronizing ∧
    ((SyncResponse.chainEntry ⟨0, 2, [1, 2]⟩).handle listCore (fun _ => none) Crypto.numbered
      (fun _ => id) waiting).Holds (fun _ c' => c'.node.stop = false → c'.Proceeds waiting.sent)
      fun _ => True := by
  refine ⟨rfl, (synchronizing_proceeds _ _ _ _ _ _ rfl).mpr fun hparks => ?_⟩
  have hknown := hparks.2.2.2.1 2 (by simp)
  exact absurd hknown (by decide)

/-- The peer claims that its chain has five blocks and that the block which both know has the height
five. -/
theorem known_block_parks_connection : ∃ c',
    (SyncResponse.chainEntry ⟨5, 5, [1]⟩).handle listCore (fun _ => none) Crypto.numbered
    (fun _ => id) waiting = .done () c' ∧ c'.node.stop = false ∧ ¬c'.Proceeds waiting.sent := by
  exact ⟨waiting.handleResponseChainEntry listCore ⟨5, 5, [1]⟩, rfl, rfl, not_proceeds rfl⟩

end Connection

end DarknetCoin
