import DarknetCoin.Theorems.SyncProgress

/-!
# Nothing is exchanged before the handshake

Until a handshake is accepted a connection that a peer has opened passes nothing to the core and
requests no blocks. The handler of a chain entry does not look at the state of the connection, so
this needs that no entry comes that was not asked for.
-/

namespace DarknetCoin

open Semantics Program

variable {σ : Type}

/-- A handshake with the identifier of this network, the first one of an incoming connection. -/
def PeerCommand.Accepted (networkId : Nat) (context : ConnectionContext) : PeerCommand → Bool
  | handshake arg => arg.networkId = networkId && context.isIncome && context.peerId = 0
  | _ => false

namespace Connection

section

variable (core : ICore σ) (parse : List UInt8 → Option Block) (crypto : Crypto) (networkId : Nat)

/-- What becomes of a connection that a peer opens: whether a handshake was accepted, and whether it
waits for a command. Between the commands the other connections change what is shared. -/
inductive Reached (Ok : Connection σ → PeerCommand → Prop) : Bool → Bool → Connection σ → Prop
  | opened (node : ProtocolNode σ) : Reached Ok false true { context := {}, node }
  | disturbed {accepted : Bool} {c : Connection σ} (h : Reached Ok accepted true c)
      (node : ProtocolNode σ) : Reached Ok accepted true { c with node }
  | handled {accepted : Bool} {c c' : Connection σ} (command : PeerCommand)
      (others : Nat → σ × Bool → σ × Bool)
      (h : Reached Ok accepted true c) (hok : Ok (beginRound core c) command)
      (hdone : handleCommand core parse crypto others networkId command (beginRound core c) =
        .done () c')
      (hrunning : c'.context.state ≠ .shutdown) :
      Reached Ok (accepted || command.Accepted networkId (beginRound core c).context) true c'
  | left {accepted : Bool} {c c' : Connection σ} (command : PeerCommand)
      (others : Nat → σ × Bool → σ × Bool)
      (h : Reached Ok accepted true c) (hok : Ok (beginRound core c) command)
      (hleaves : (handleCommand core parse crypto others networkId command
        (beginRound core c)).Leaves c') :
      Reached Ok (accepted || command.Accepted networkId (beginRound core c).context) false c'

/-- A chain entry that the handler takes up is not one that was not asked for: one that names an
unknown block, unless its heights end the connection, or one that has everything before the
handshake. -/
def Asked (c : Connection σ) : PeerCommand → Prop
  | .responseChainEntry arg => c.context.state = .synchronizing ∨
      (∀ first ∈ arg.blockIds.head?, core.haveBlock first c.node.core = true →
        ((∀ id ∈ arg.blockIds, core.haveBlock id c.node.core = true) ∨ c.context.state ≠
          .beforHandshake ∧
            arg.startHeight + UInt32.ofNat arg.blockIds.length - 1 > arg.totalHeight) ∧
        (c.context.state = .beforHandshake →
          arg.startHeight + UInt32.ofNat arg.blockIds.length - 1 ≠ arg.totalHeight - 1))
  | _ => True

end

variable {core : ICore σ} {parse : List UInt8 → Option Block} {crypto : Crypto} {networkId : Nat}
  {others : Nat → σ × Bool → σ × Bool} {c : Connection σ} {command : PeerCommand}

/-- Only a connection that is synchronising, or about to be closed, needs or has requested
blocks. -/
def Listed (c : Connection σ) : Prop :=
  c.context.state = .synchronizing ∨ c.context.state = .shutdown ∨
    c.context.neededObjects = [] ∧ c.context.requestedObjects = ∅

theorem listed_setState_shutdown : (c.setState .shutdown).Listed := .inr (.inl rfl)

theorem context_requestMissingPoolTransactions : (requestMissingPoolTransactions core c).context =
    c.context := by
  unfold requestMissingPoolTransactions
  split <;> rfl

theorem Listed.requestMissingObjects (h : c.Listed) (checkHavingBlocks : Bool) :
    (requestMissingObjects core checkHavingBlocks c).Listed := by
  unfold Connection.requestMissingObjects
  split
  · next hneeded => exact h.imp_right fun h => h.imp_right fun h => absurd h.1 hneeded
  split
  · exact h
  split
  · next hend =>
    refine .inr (.inr ?_)
    rw [context_onConnectionSynchronized]
    simpa [setState, context_requestMissingPoolTransactions] using hend.2
  · exact h

theorem Listed.handleResponseChainEntry (h : c.Listed) (hrunning : c.context.state ≠ .shutdown)
    {arg : ChainEntryResponse} (hasked : Asked core c (.responseChainEntry arg)) :
    (handleResponseChainEntry core arg c).Listed := by
  unfold Connection.handleResponseChainEntry
  split
  · exact listed_setState_shutdown
  rename_i first rest hids
  split
  · exact listed_setState_shutdown
  rename_i hfirst
  apply Listed.requestMissingObjects
  -- outside of the synchronisation no block is unknown, or the connection is closed
  by_cases hlast : arg.startHeight + UInt32.ofNat arg.blockIds.length - 1 > arg.totalHeight
  · exact .inr (.inl (if_pos hlast))
  rcases hasked with hsync | hasked
  · exact .inl ((if_neg hlast).trans hsync)
  obtain ⟨hknown, -⟩ := hasked first (by rw [hids]; rfl) (by simpa using hfirst)
  have hknown := hknown.resolve_right fun hclosed => hlast hclosed.2
  refine h.imp (fun hsync => (if_neg hlast).trans hsync) (.imp (absurd · hrunning) ?_)
  rintro ⟨hneeded, hrequested⟩
  refine ⟨?_, hrequested⟩
  simpa [hneeded] using hknown

theorem GivenUp.listed (h : c.GivenUp) : c.Listed := .inr (h.imp_right .right)

theorem Listed.handleResponseGetObjects (h : c.Listed) (arg : ObjectsResponse) :
    (handleResponseGetObjects core parse crypto others arg c).Holds (fun _ => Listed)
    fun _ => True := by
  refine (handleResponseGetObjects_spec arg).mono (fun _ c' hspec => ?_) fun _ _ => trivial
  rcases hspec with hgiven | ⟨c₁, hcontext, -, -, -, -, rfl⟩
  · exact hgiven.listed
  have hlisted : c₁.Listed := by
    rw [Listed, hcontext]
    exact h.imp_right fun h => h.imp_right fun h => ⟨h.1, rfl⟩
  split
  · exact hlisted.requestMissingObjects true
  · exact hlisted

theorem pass_keeps_listed {α : Type} (blob : List UInt8) (call : Program σ α) :
    (pass blob call).Keeps Listed :=
  .zoom fun _ h => Outcome.holds_true.mono (fun _ _ _ => h) fun _ _ => h

theorem handleNotifyNewBlock_keeps_listed (b : BlockCompleteEntry) (height : UInt32) :
    (handleNotifyNewBlock core b height).Keeps Listed := by
  refine .bind (.modify fun _ h => h) fun _ => Keeps.get.bind fun c => .ite (fun _ => .pure _)
    fun _ => (Keeps.forAllM fun tx _ => (pass_keeps_listed tx _).bind fun _ => Keeps.pure _).bind
        fun valid =>
      .ite (fun _ => (pass_keeps_listed _ _).bind fun bvc => .modify fun c hc => ?_) fun _ =>
        Keeps.modify fun c _ => listed_setState_shutdown
  split
  · exact listed_setState_shutdown
  split
  · split
    · rwa [Listed, context_requestMissingPoolTransactions]
    · exact hc
  · split
    · exact .inl rfl
    · exact hc

theorem Listed.processPayloadSyncData (h : c.Listed) (hrunning : c.context.state ≠ .shutdown)
    (hshd : CoreSyncData) (isInital : Bool) :
    (processPayloadSyncData core hshd isInital c).Listed := by
  unfold Connection.processPayloadSyncData
  split
  · exact h
  by_cases hsync : c.context.state = .synchronizing
  · exact Or.inl (by simp [hsync])
  obtain ⟨hneeded, hrequested⟩ := (h.resolve_left hsync).resolve_left hrunning
  refine .inr (.inr ?_)
  rw [if_neg hsync]
  split
  · split <;> simp [setState, context_onConnectionSynchronized, hneeded, hrequested]
  · exact ⟨hneeded, hrequested⟩

/-- Every command keeps the lists in step with the state. -/
theorem listed_handleCommand (h : c.Listed) (hrunning : c.context.state ≠ .shutdown)
    (hasked : Asked core c command) :
    (handleCommand core parse crypto others networkId command c).Holds (fun _ => Listed)
    fun _ => True := by
  cases command with
  | handshake arg =>
    change (handleHandshake core networkId arg c).Listed
    unfold handleHandshake
    dsimp only
    split
    · exact listed_setState_shutdown
    split
    · exact listed_setState_shutdown
    split
    · exact listed_setState_shutdown
    · exact .processPayloadSyncData (c := { c with context.version := arg.version }) h
        hrunning _ true
  | timedSync payloadData => exact h.processPayloadSyncData hrunning payloadData false
  | timedSyncResponse valid payloadData =>
    cases valid with
    | false => exact listed_setState_shutdown
    | true => exact h.processPayloadSyncData hrunning payloadData false
  | newBlock b height =>
    exact (handleNotifyNewBlock_keeps_listed b height c h).mono (fun _ _ h => h) fun _ _ => trivial
  | newTransactions txs =>
    have hkeeps : (handleNotifyNewTransactions core txs).Keeps Listed := Keeps.get.bind fun c =>
      Keeps.ite (fun _ => Keeps.pure _) fun _ => (Keeps.forAllM fun tx _ =>
        (pass_keeps_listed tx _).bind fun _ => .pure _).bind fun _ => .pure _
    exact (hkeeps c h).mono (fun _ _ h => h) fun _ _ => trivial
  | requestGetObjects txs blocks =>
    change ((if _ then c else _ : Connection σ).post _).Listed
    split
    · exact h
    · exact listed_setState_shutdown
  | responseGetObjects arg => exact h.handleResponseGetObjects arg
  | requestChain blockIds =>
    change (handleRequestChain core blockIds c).Listed
    unfold handleRequestChain
    split
    · exact listed_setState_shutdown
    split
    · exact listed_setState_shutdown
    · exact h
  | responseChainEntry arg => exact h.handleResponseChainEntry hrunning hasked
  | requestTxPool txs =>
    change (handleRequestTxPool core txs c).Listed
    unfold handleRequestTxPool
    dsimp only
    split <;> exact h
  | malformed => trivial
  | other => exact h

/-- Nothing was passed to the core and no blocks were requested. -/
structure Silent (c : Connection σ) : Prop where
  passed : c.passed = []
  sent : ∀ blocks, PeerMessage.requestGetObjects blocks ∉ c.sent
  state : c.context.state = .beforHandshake ∨ c.context.state = .shutdown

theorem Silent.shutdown (h : c.Silent) : (c.setState .shutdown).Silent :=
  ⟨h.passed, h.sent, Or.inr rfl⟩

theorem Silent.post (h : c.Silent) {message : PeerMessage}
    (hmessage : ∀ blocks, message ≠ .requestGetObjects blocks) : (c.post message).Silent := by
  refine ⟨h.passed, fun blocks hmem => ?_, h.state⟩
  rcases List.mem_append.mp hmem with hsent | hnew
  · exact h.sent blocks hsent
  · exact hmessage blocks (List.mem_singleton.mp hnew).symm

theorem Silent.requestMissingObjects (h : c.Silent) (hneeded : c.context.neededObjects = [])
    (hlast : c.context.lastResponseHeight ≠ c.context.remoteBlockchainHeight - 1)
    (checkHavingBlocks : Bool) : (requestMissingObjects core checkHavingBlocks c).Silent := by
  unfold Connection.requestMissingObjects
  rw [if_neg (by simp [hneeded])]
  split
  · exact h.post nofun
  · rwa [if_neg fun hend => hlast hend.1]

section

variable (h : c.Silent) (hstate : c.context.state = .beforHandshake)

include h hstate

theorem Silent.handleResponseChainEntry (hneeded : c.context.neededObjects = [])
    {arg : ChainEntryResponse} (hasked : Asked core c (.responseChainEntry arg)) :
    (handleResponseChainEntry core arg c).Silent := by
  unfold Connection.handleResponseChainEntry
  split
  · exact h.shutdown
  rename_i first rest hids
  split
  · exact h.shutdown
  rename_i hfirst
  obtain ⟨hknown, hlast⟩ := (hasked.resolve_left (by simp [hstate])) first (by rw [hids]; rfl)
    (by simpa using hfirst)
  apply Silent.requestMissingObjects
  · refine ⟨h.passed, h.sent, ?_⟩
    dsimp only
    split
    · exact .inr rfl
    · exact .inl hstate
  · have hknown := hknown.resolve_right fun hclosed => hclosed.1 hstate
    simpa [hneeded] using hknown
  · exact hlast hstate

theorem silent_handleResponseGetObjects (hrequested : c.context.requestedObjects = ∅)
    (arg : ObjectsResponse) :
    (handleResponseGetObjects core parse crypto others arg c).Holds (fun _ => Silent) Silent := by
  have hsilent : Silent { c with context.remoteBlockchainHeight := arg.currentBlockchainHeight } :=
    ⟨h.passed, h.sent, h.state⟩
  unfold handleResponseGetObjects
  split
  · exact h.shutdown
  cases arg.blocks with
  | nil =>
    rw [checkObjects]
    dsimp only
    rw [if_neg (by simp [hrequested])]
    change (if _ then _ else _ : Connection σ).Silent
    rw [if_neg (by simp [hstate])]
    exact hsilent
  | cons entry entries =>
    -- no block was requested
    unfold checkObjects
    cases parse entry.block with
    | none => exact hsilent.shutdown
    | some b =>
      dsimp only
      rw [if_neg (by simp), if_pos (by simp [hrequested])]
      exact hsilent.shutdown

/-- A command that is no accepted handshake keeps a connection silent. -/
theorem silent_handleCommand (hlists : c.context.neededObjects = [] ∧
      c.context.requestedObjects = ∅)
    (hasked : Asked core c command) (hrefused : command.Accepted networkId c.context = false) :
    (handleCommand core parse crypto others networkId command c).Holds
    (fun _ => Silent) Silent := by
  cases command with
  | handshake arg =>
    change (handleHandshake core networkId arg c).Silent
    unfold handleHandshake
    dsimp only
    split
    · exact ⟨h.passed, h.sent, .inr rfl⟩
    split
    · exact ⟨h.passed, h.sent, .inr rfl⟩
    split
    · exact ⟨h.passed, h.sent, .inr rfl⟩
    · simp_all [PeerCommand.Accepted]
  | timedSync payloadData =>
    change (processPayloadSyncData core payloadData false c).Silent
    rwa [processPayloadSyncData, if_pos (by simp [hstate])]
  | timedSyncResponse valid payloadData =>
    cases valid with
    | false => exact h.shutdown
    | true =>
      change (processPayloadSyncData core payloadData false c).Silent
      rwa [processPayloadSyncData, if_pos (by simp [hstate])]
  | newBlock b height =>
    change ((if _ then _ else _ : Program (Connection σ) Unit) _).Holds _ _
    rw [if_pos (by simp [hstate])]
    exact ⟨h.passed, h.sent, h.state⟩
  | newTransactions txs =>
    change ((if _ then _ else _ : Program (Connection σ) Unit) _).Holds _ _
    rwa [if_pos (by simp [hstate])]
  | requestGetObjects txs blocks =>
    change ((if _ then c else _ : Connection σ).post _).Silent
    split
    · exact h.post nofun
    · exact h.shutdown.post nofun
  | responseGetObjects arg => exact silent_handleResponseGetObjects h hstate hlists.2 arg
  | requestChain blockIds =>
    change (handleRequestChain core blockIds c).Silent
    unfold handleRequestChain
    split
    · exact h.shutdown
    split
    · exact h.shutdown
    · exact h.post nofun
  | responseChainEntry arg => exact h.handleResponseChainEntry hstate hlists.1 hasked
  | requestTxPool txs =>
    change (handleRequestTxPool core txs c).Silent
    unfold handleRequestTxPool
    dsimp only
    split
    · exact h
    · exact h.post nofun
  | malformed => exact h
  | other => exact h

end

/-- What holds of a connection while it waits for commands, and until a handshake is accepted. -/
structure Orderly (accepted running : Bool) (c : Connection σ) : Prop where
  listed : running = true → c.Listed ∧ c.context.state ≠ .shutdown
  silent : accepted = false → c.Silent

variable (core) in
theorem Orderly.beginRound {accepted : Bool} (h : c.Orderly accepted true) :
    (beginRound core c).Orderly accepted true := by
  obtain ⟨hlisted, hrunning⟩ := h.listed rfl
  unfold Connection.beginRound
  split
  · next hstate =>
    refine ⟨fun _ => ⟨.inl rfl, nofun⟩, fun hacc => ?_⟩
    exact absurd ((h.silent hacc).state) (by simp [hstate])
  · next hstate =>
    refine ⟨fun _ => ?_, fun hacc => absurd ((h.silent hacc).state) (by simp [hstate])⟩
    rw [Listed, context_requestMissingPoolTransactions]
    exact ⟨Or.inr (Or.inr ((hlisted.resolve_left (by simp [hstate])).resolve_left hrunning)), nofun⟩
  · exact h

theorem Orderly.silent_of_leaves {accepted : Bool} (h : c.Orderly accepted true)
    (hasked : Asked core c command) {c' : Connection σ} (hleaves :
      (handleCommand core parse crypto others networkId command c).Leaves c')
    (hrefused : (accepted || command.Accepted networkId c.context) = false) : c'.Silent := by
  obtain ⟨hacc, hrefused⟩ := Bool.or_eq_false_iff.mp hrefused
  obtain ⟨hlisted, hrunning⟩ := h.listed rfl
  have hsilent := h.silent hacc
  have hstate := hsilent.state.resolve_right hrunning
  have hlists := (hlisted.resolve_left (by simp [hstate])).resolve_left hrunning
  exact (silent_handleCommand hsilent hstate hlists hasked hrefused).leaves hleaves

theorem orderly_of_reached {accepted running : Bool}
    (h : Reached core parse crypto networkId (Asked core) accepted running c) :
    c.Orderly accepted running := by
  induction h with
  | opened node =>
    exact ⟨fun _ => ⟨.inr (.inr ⟨rfl, rfl⟩), nofun⟩, fun _ => ⟨rfl, fun _ => nofun, .inl rfl⟩⟩
  | disturbed _ node ih =>
    refine ⟨ih.listed, fun hacc => ?_⟩
    obtain ⟨hpassed, hsent, hstate⟩ := ih.silent hacc
    exact ⟨hpassed, hsent, hstate⟩
  | handled command others _ hok hdone hrunning ih =>
    have hround := ih.beginRound core
    obtain ⟨hlisted, hopen⟩ := hround.listed rfl
    exact ⟨fun _ => ⟨(listed_handleCommand hlisted hopen hok).of_done hdone, hrunning⟩,
      hround.silent_of_leaves hok (hdone ▸ Outcome.Leaves.done () _)⟩
  | left command others _ hok hleaves ih =>
    exact ⟨nofun, (ih.beginRound core).silent_of_leaves hok hleaves⟩

/-- Before a handshake is accepted nothing is passed to the core and no blocks are requested, and a
synchronisation starts with empty lists, where all chain entries were asked for. -/
theorem silent_before_handshake (core : ICore σ) (parse : List UInt8 → Option Block)
    (crypto : Crypto) (networkId : Nat) {accepted running : Bool} {c : Connection σ}
    (h : Reached core parse crypto networkId (Asked core) accepted running c) :
    (accepted = false → c.passed = [] ∧ ∀ blocks, PeerMessage.requestGetObjects blocks ∉ c.sent) ∧
    (running = true → c.context.state = .syncRequired →
      c.context.neededObjects = [] ∧ c.context.requestedObjects = ∅) := by
  obtain ⟨hlisted, hsilent⟩ := orderly_of_reached h
  refine ⟨fun hacc => ⟨(hsilent hacc).passed, (hsilent hacc).sent⟩, fun hrunning hstate => ?_⟩
  exact ((hlisted hrunning).1.resolve_left (by simp [hstate])).resolve_left (hlisted hrunning).2

/-- The node of a connection that is opened; it has one block. -/
def oneBlock : ProtocolNode (List Hash) := { core := [1] }

/-- The connections to that node, in a network with the identifier one. -/
abbrev ReachedOne (Ok : Connection (List Hash) → PeerCommand → Prop) : Bool → Bool →
    Connection (List Hash) → Prop :=
  Reached listCore (fun _ => none) Crypto.numbered 1 Ok

/-- Before the handshake a request of the peer is answered, and a handshake of a peer with an
unknown block starts the synchronisation. -/
theorem silent_before_handshake_unknown_top :
    (∃ c, ReachedOne (Asked listCore) false true c ∧ c.sent ≠ [] ∧ c.passed = [] ∧
      ∀ blocks, .requestGetObjects blocks ∉ c.sent) ∧
    ∃ c, ReachedOne (Asked listCore) true true c ∧ c.context.state = .syncRequired ∧
      c.context.neededObjects = [] ∧ c.context.requestedObjects = ∅ := by
  have hasked : ReachedOne (Asked listCore) false true _ :=
    .handled (.requestChain [1]) (fun _ => id) (.opened oneBlock) trivial rfl (by decide)
  have hgreeted : ReachedOne (Asked listCore) true true _ :=
    .handled (.handshake ⟨1, 1, 7, 3, 9⟩) (fun _ => id) (.opened oneBlock) trivial rfl nofun
  exact ⟨⟨_, hasked, nofun, (silent_before_handshake _ _ _ _ hasked).1 rfl⟩,
    ⟨_, hgreeted, rfl, (silent_before_handshake _ _ _ _ hgreeted).2 rfl rfl⟩⟩

/-- Before the handshake a chain entry with an unknown block makes the node request it, and one with
all that the peer has makes it take transactions. After the handshake, when the connection is not
synchronising, the first leaves a request behind when a synchronisation starts. -/
theorem unasked_chain_entries :
    (∃ c, ReachedOne (fun _ _ => True) false true c ∧ .requestGetObjects [2] ∈ c.sent) ∧
    (∃ c, ReachedOne (fun _ _ => True) false true c ∧ c.passed = [[7]]) ∧
    ∃ c, ReachedOne (fun _ _ => True) true true c ∧ c.context.state = .syncRequired ∧
      c.context.requestedObjects ≠ ∅ := by
  have hopened : ReachedOne (fun _ _ => True) false true _ := .opened oneBlock
  -- a connection without handshake is as good as a synchronised one
  have hnormal : ReachedOne (fun _ _ => True) false true _ :=
    .handled (.responseChainEntry ⟨0, 1, [1]⟩) (fun _ => id) hopened trivial rfl (by decide)
  have hgreeted : ReachedOne (fun _ _ => True) true true _ :=
    .handled (.handshake ⟨1, 1, 7, 1, 1⟩) (fun _ => id) hopened trivial rfl (by decide)
  have hrequested : ReachedOne (fun _ _ => True) true true _ :=
    .handled (.responseChainEntry ⟨0, 2, [1, 2]⟩) (fun _ => id) hgreeted trivial rfl (by decide)
  refine ⟨⟨_, .handled (.responseChainEntry ⟨0, 2, [1, 2]⟩) (fun _ => id) hopened trivial rfl
    (by decide), ?_⟩,
    ⟨_, .handled (.newTransactions [[7]]) (fun _ => id) hnormal trivial rfl (by decide), rfl⟩,
    ⟨_, .handled (.timedSync ⟨3, 9⟩) (fun _ => id) hrequested trivial rfl (by decide),
      rfl, by decide⟩⟩
  decide

end Connection

end DarknetCoin
