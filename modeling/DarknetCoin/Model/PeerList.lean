import DarknetCoin.Data.OrderedIndex
import DarknetCoin.Model.IntUtil
import DarknetCoin.Semantics.Program

/-!
# The peer lists

`P2p/PeerListManager.cpp`, and the functions of `P2p/NetNode.cpp` that merge the list of a remote
node. The white list has the peers the node was connected to, the gray list those it has heard of;
both lose what was seen least recently. The calls on the lists return true; no insertion throws.
-/

namespace DarknetCoin

open Data Semantics

structure NetworkAddress where
  ip : BitVec 32
  port : BitVec 32
  deriving DecidableEq, Repr

structure PeerlistEntry where
  adr : NetworkAddress
  id : Nat
  lastSeen : Nat
  deriving DecidableEq, Repr

/-- `peers_indexed`, in the order of the index by time. An updated record goes behind those of its
time; the source's index leaves it in place where the order allows. -/
abbrev PeersIndexed := OrderedIndex PeerlistEntry.adr PeerlistEntry.lastSeen

namespace PeersIndexed

/-- `Peerlist::trim`. -/
def trim (maxSize : Nat) (peers : PeersIndexed) : PeersIndexed where
  toList := peers.toList.drop (peers.toList.length - maxSize)
  nodup := peers.nodup.sublist ((List.drop_sublist _ _).map _)
  sorted := peers.sorted.sublist (List.drop_sublist _ _)

/-- Both lists put a new record in, or update the one they have. -/
def put (maxSize : Nat) (ple : PeerlistEntry) (peers : PeersIndexed) : PeersIndexed :=
  match peers.find? ple.adr with
  | none => trim maxSize (peers.emplace ple)
  | some _ => peers.replace ple

end PeersIndexed

def networkToHost (n : BitVec 32) : BitVec 32 :=
  n <<< 24 ||| (n &&& 0xff00) <<< 8 ||| (n &&& 0xff0000) >>> 8 ||| n >>> 24

def isLoopback (value : BitVec 32) : Bool := value &&& 0xff000000 == 127 <<< 24

def isPrivate (value : BitVec 32) : Bool :=
  value &&& 0xff000000 == 10 <<< 24 || value &&& 0xfff00000 == (172 <<< 24 ||| 16 <<< 16) ||
    value &&& 0xffff0000 == (192 <<< 24 ||| 168 <<< 16)

structure PeerlistManager where
  allowLocalIp : Bool
  white : PeersIndexed
  gray : PeersIndexed

namespace PeerlistManager

def whitePeerlistLimit : Nat := 1000

def grayPeerlistLimit : Nat := 5000

/-- The constructor and `init`. -/
def init (allowLocalIp : Bool) : PeerlistManager := ⟨allowLocalIp, .empty, .empty⟩

def isIpAllowed (ip : BitVec 32) (m : PeerlistManager) : Bool :=
  !isLoopback (networkToHost ip) && (m.allowLocalIp || !isPrivate (networkToHost ip))

def appendWithPeerWhite (ple : PeerlistEntry) (m : PeerlistManager) : PeerlistManager :=
  if m.isIpAllowed ple.adr.ip then
    { m with white := m.white.put whitePeerlistLimit ple, gray := m.gray.erase ple.adr }
  else m

def appendWithPeerGray (ple : PeerlistEntry) (m : PeerlistManager) : PeerlistManager :=
  if m.isIpAllowed ple.adr.ip ∧ m.white.find? ple.adr = none then
    { m with gray := m.gray.put grayPeerlistLimit ple }
  else m

def setPeerJustSeen (now : Nat) (peer : Nat) (addr : NetworkAddress) : PeerlistManager →
    PeerlistManager :=
  appendWithPeerWhite ⟨addr, peer, now⟩

def mergePeerlist (outer : List PeerlistEntry) (m : PeerlistManager) : PeerlistManager :=
  let m := outer.foldl (fun m be => m.appendWithPeerGray be) m
  { m with gray := m.gray.trim grayPeerlistLimit }

/-- The loop of `get_peerlist_head`, with its 32-bit counter. -/
def headFrom (depth cnt : Nat) : List PeerlistEntry → List PeerlistEntry
  | [] => []
  | vl :: rest =>
    if vl.lastSeen = 0 then headFrom depth cnt rest
    else vl :: if depth < cnt then [] else headFrom depth ((cnt + 1) % word32) rest

def getPeerlistHead (depth : Nat) (m : PeerlistManager) : List PeerlistEntry :=
  headFrom depth 0 m.white.toList.reverse

/-- `fix_time_delta`: nothing if an entry is from the future. Times are signed words of 64 bits, and
what was last seen is unsigned. -/
def fixTimeDelta (peerlist : List PeerlistEntry) (localTime now : Int) :
    Except Fault (Option (List PeerlistEntry)) :=
  let delta := now - localTime
  if 2 ^ 63 ≤ delta ∨ delta < -2 ^ 63 then .error .undefined
  else if peerlist.any fun be => localTime % word64 < be.lastSeen then .ok none
  else .ok (some (peerlist.map fun be =>
    { be with lastSeen := ((be.lastSeen + delta) % word64).toNat }))

def handleRemotePeerlist (peerlist : List PeerlistEntry) (localTime now : Int)
    (m : PeerlistManager) : Except Fault (Bool × PeerlistManager) :=
  match fixTimeDelta peerlist localTime now with
  | .error fault => .error fault
  | .ok none => .ok (false, m)
  | .ok (some peerlist) => .ok (true, m.mergePeerlist peerlist)

end PeerlistManager

end DarknetCoin
