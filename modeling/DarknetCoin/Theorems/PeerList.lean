import DarknetCoin.Model.PeerList

/-!
# What the peer lists hold

Along every run of calls the two lists have no address in common, stay below their limits and have
no address that is not allowed; what is dropped was not seen after what is kept.
-/

namespace DarknetCoin

open Data List

variable {maxSize depth cnt : Nat} {ple : PeerlistEntry} {peers : PeersIndexed}
  {m : PeerlistManager}

namespace PeersIndexed

theorem forall_mem_put {p : PeerlistEntry → Prop} (hnew : p ple)
    (hold : ∀ e ∈ peers.toList, e.adr ≠ ple.adr → p e) :
    ∀ e ∈ (put maxSize ple peers).toList, p e := by
  intro e he
  unfold put at he
  split at he
  · rename_i hnone
    have hfresh := OrderedIndex.find?_eq_none.mp hnone
    have hmem := (OrderedIndex.toList_emplace_perm hfresh).mem_iff.mp (mem_of_mem_drop he)
    rcases mem_cons.mp hmem with rfl | hmem
    · exact hnew
    · exact hold e hmem fun heq => hfresh (heq ▸ mem_map_of_mem hmem)
  · have hmem := (OrderedIndex.toList_replace_perm ple peers).mem_iff.mp he
    rcases mem_cons.mp hmem with rfl | hmem
    · exact hnew
    · obtain ⟨hmem, hne⟩ := mem_filter.mp hmem
      exact hold e hmem (of_decide_eq_true hne)

theorem length_put (h : peers.toList.length ≤ maxSize) : (put maxSize ple peers).toList.length ≤
    maxSize := by
  unfold put
  split
  · rw [trim, length_drop]
    omega
  · rename_i old hold
    obtain ⟨hmem, hadr⟩ := OrderedIndex.find?_eq_some.mp hold
    rw [(OrderedIndex.toList_replace_perm ple peers).length_eq, ← hadr]
    exact (OrderedIndex.perm_cons_filter_key peers.nodup hmem).length_eq ▸ h

theorem trim_of_le (h : peers.toList.length ≤ maxSize) : peers.trim maxSize = peers := by
  ext1
  simp [trim, Nat.sub_eq_zero_of_le h]

/-- An entry that was in the list or comes in is only missing afterwards if no entry that is left
was seen earlier. -/
def Trims (before : PeersIndexed) (ple : PeerlistEntry) (after : PeersIndexed) : Prop :=
  ∀ e, e = ple ∨ e ∈ before.toList → e.adr ∉ after.toList.map PeerlistEntry.adr →
    ∀ kept ∈ after.toList, e.lastSeen ≤ kept.lastSeen

theorem trims_put : Trims peers ple (put maxSize ple peers) := by
  intro e h hdropped
  unfold put at hdropped ⊢
  split at hdropped
  · rename_i hnew
    have hfresh := OrderedIndex.find?_eq_none.mp hnew
    have hmem := (OrderedIndex.toList_emplace_perm hfresh).mem_iff.mpr (mem_cons.mpr h)
    have hsorted := (peers.emplace ple).sorted
    rw [← take_append_drop ((peers.emplace ple).toList.length - maxSize) (peers.emplace ple).toList]
      at hmem hsorted
    rcases mem_append.mp hmem with hfirst | hlast
    · exact (pairwise_append.mp hsorted).2.2 e hfirst
    · exact (hdropped (mem_map_of_mem hlast)).elim
  · -- an update keeps every address
    have hmem : e.adr ∈ (ple :: peers.toList.filter fun b => b.adr ≠ ple.adr).map
        PeerlistEntry.adr := by
      by_cases heq : e.adr = ple.adr
      · simp [heq]
      · rcases h with rfl | hold
        · exact (heq rfl).elim
        · exact mem_map_of_mem (mem_cons_of_mem _ (by simpa using ⟨hold, heq⟩))
    have hperm := (OrderedIndex.toList_replace_perm ple peers).map PeerlistEntry.adr
    exact (hdropped (hperm.mem_iff.mpr hmem)).elim

end PeersIndexed

namespace PeerlistManager

open PeersIndexed

variable {allowLocalIp : Bool}

/-- The address of an entry is not a loopback address, and not a private one unless these are
allowed. -/
def Allowed (allowLocalIp : Bool) (e : PeerlistEntry) : Prop :=
  isLoopback (networkToHost e.adr.ip) = false ∧
    (allowLocalIp = false → isPrivate (networkToHost e.adr.ip) = false)

structure WellFormed (allowLocalIp : Bool) (m : PeerlistManager) : Prop where
  unchanged : m.allowLocalIp = allowLocalIp
  disjoint : ∀ e ∈ m.white.toList, ∀ e' ∈ m.gray.toList, e.adr ≠ e'.adr
  white_le : m.white.toList.length ≤ whitePeerlistLimit
  gray_le : m.gray.toList.length ≤ grayPeerlistLimit
  white_allowed : ∀ e ∈ m.white.toList, Allowed allowLocalIp e
  gray_allowed : ∀ e ∈ m.gray.toList, Allowed allowLocalIp e

namespace WellFormed

variable (h : m.WellFormed allowLocalIp)
include h

theorem allowed (hallowed : m.isIpAllowed ple.adr.ip = true) : Allowed allowLocalIp ple := by
  rw [isIpAllowed, h.unchanged] at hallowed
  obtain ⟨hloopback, hprivate⟩ := Bool.and_eq_true_iff.mp hallowed
  refine ⟨by simpa using hloopback, ?_⟩
  rintro rfl
  simpa using hprivate

theorem white (ple : PeerlistEntry) : (m.appendWithPeerWhite ple).WellFormed allowLocalIp := by
  unfold appendWithPeerWhite
  split
  · rename_i hallowed
    have hgray {e : PeerlistEntry} (he : e ∈ (m.gray.erase ple.adr).toList) : e ∈ m.gray.toList ∧
        e.adr ≠ ple.adr := by
      simpa using he
    exact { h with
      disjoint := forall_mem_put (fun _ he => (hgray he).2.symm) fun e he _ e' he' =>
        h.disjoint e he e' (hgray he').1
      white_le := length_put h.white_le
      gray_le := (length_filter_le _ _).trans h.gray_le
      white_allowed := forall_mem_put (h.allowed hallowed) fun e he _ => h.white_allowed e he
      gray_allowed := fun e he => h.gray_allowed e (hgray he).1 }
  · exact h

theorem gray (ple : PeerlistEntry) : (m.appendWithPeerGray ple).WellFormed allowLocalIp := by
  unfold appendWithPeerGray
  split
  · rename_i hnew
    obtain ⟨hallowed, hnew⟩ := hnew
    -- an address that is not in the white list
    have hfresh : ∀ e ∈ m.white.toList, e.adr ≠ ple.adr := fun e he heq =>
      OrderedIndex.find?_eq_none.mp hnew (heq ▸ mem_map_of_mem he)
    exact { h with
      disjoint := fun e he => forall_mem_put (hfresh e he) fun e' he' _ => h.disjoint e he e' he'
      gray_le := length_put h.gray_le
      gray_allowed := forall_mem_put (h.allowed hallowed) fun e he _ => h.gray_allowed e he }
  · exact h

/-- After the appends of a merge there is nothing to trim. -/
theorem merge (outer : List PeerlistEntry) :
    m.mergePeerlist outer = outer.foldl (fun m be => m.appendWithPeerGray be) m ∧
      (m.mergePeerlist outer).WellFormed allowLocalIp := by
  have hall : (outer.foldl (fun m be => m.appendWithPeerGray be) m).WellFormed allowLocalIp :=
    foldlRecOn outer _ h fun _ h be _ => h.gray be
  rw [mergePeerlist, trim_of_le hall.gray_le]
  exact ⟨rfl, hall⟩

end WellFormed

end PeerlistManager

/-- The calls that change the lists. -/
inductive PeerCall
  | mergePeerlist (outer : List PeerlistEntry)
  | appendWithPeerWhite (ple : PeerlistEntry)
  | appendWithPeerGray (ple : PeerlistEntry)
  | setPeerJustSeen (now peer : Nat) (addr : NetworkAddress)

def PeerCall.perform : PeerCall → PeerlistManager → PeerlistManager
  | mergePeerlist outer => .mergePeerlist outer
  | appendWithPeerWhite ple => .appendWithPeerWhite ple
  | appendWithPeerGray ple => .appendWithPeerGray ple
  | setPeerJustSeen now peer addr => .setPeerJustSeen now peer addr

open PeerlistManager PeersIndexed

/-- The lists after any calls, and what the next entry that comes in can drop. A merge is a run of
such entries. -/
theorem peerlists_of_calls (allowLocalIp : Bool) (calls : List PeerCall) :
    let m := calls.foldl (fun m call => call.perform m) (init allowLocalIp)
    m.WellFormed allowLocalIp ∧ (m.white.toList.map PeerlistEntry.adr).Nodup ∧
    (m.gray.toList.map PeerlistEntry.adr).Nodup ∧
    (∀ ple, m.appendWithPeerWhite ple = m ∨ Trims m.white ple (m.appendWithPeerWhite ple).white ∧
      ∀ e ∈ m.gray.toList, e ∈ (m.appendWithPeerWhite ple).gray.toList ∨ e.adr = ple.adr) ∧
    (∀ ple, m.appendWithPeerGray ple = m ∨ Trims m.gray ple (m.appendWithPeerGray ple).gray ∧
      (m.appendWithPeerGray ple).white = m.white) ∧
    ∀ outer, m.mergePeerlist outer = outer.foldl (fun m be => m.appendWithPeerGray be) m := by
  intro m
  have hm : m.WellFormed allowLocalIp := by
    refine foldlRecOn calls _ ⟨rfl, forall_mem_nil _, Nat.zero_le _, Nat.zero_le _,
      forall_mem_nil _, forall_mem_nil _⟩ fun m h call _ => ?_
    cases call with
    | mergePeerlist outer => exact (h.merge outer).2
    | appendWithPeerWhite ple => exact h.white ple
    | appendWithPeerGray ple => exact h.gray ple
    | setPeerJustSeen now peer addr => exact h.white ⟨addr, peer, now⟩
  refine ⟨hm, m.white.nodup, m.gray.nodup, fun ple => ?_, fun ple => ?_, fun outer =>
    (hm.merge outer).1⟩
  · unfold appendWithPeerWhite
    split
    · refine .inr ⟨trims_put, fun e he => ?_⟩
      by_cases hadr : e.adr = ple.adr
      · exact .inr hadr
      · exact .inl (by simpa using ⟨he, hadr⟩)
    · exact .inl rfl
  · unfold appendWithPeerGray
    split
    · exact .inr ⟨trims_put, rfl⟩
    · exact .inl rfl

theorem headFrom_eq_filter {list : List PeerlistEntry}
    (h : cnt + (list.filter fun vl => vl.lastSeen ≠ 0).length ≤ depth + 1) :
    headFrom depth cnt list = list.filter fun vl => vl.lastSeen ≠ 0 := by
  induction list generalizing cnt with
  | nil => rfl
  | cons vl rest ih =>
    rw [headFrom]
    split
    · rename_i hnever
      simp only [hnever, ne_eq, not_true, decide_false, Bool.false_eq_true,
        not_false_eq_true, filter_cons_of_neg] at h ⊢
      exact ih h
    · rename_i hseen
      have hcnt : (cnt + 1) % word32 ≤ cnt + 1 := Nat.mod_le _ _
      rw [filter_cons_of_pos (by simpa using hseen), length_cons] at h
      rw [filter_cons_of_pos (by simpa using hseen), if_neg (by omega), ih (by omega)]

/-- The loop goes on until it is behind `depth`. -/
theorem le_length_headFrom (list : List PeerlistEntry) :
    min (list.filter fun vl => vl.lastSeen ≠ 0).length (depth + 1 - cnt) ≤
    (headFrom depth cnt list).length := by
  induction list generalizing cnt with
  | nil => simp
  | cons vl rest ih =>
    rw [headFrom]
    split
    · rename_i hnever
      simpa [hnever] using ih
    · rename_i hseen
      have hcnt : (cnt + 1) % word32 ≤ cnt + 1 := Nat.mod_le _ _
      have hrest := @ih ((cnt + 1) % word32)
      rw [filter_cons_of_pos (by simpa using hseen), length_cons, length_cons]
      split
      · omega
      · omega

/-- The most recently seen peers are sent, no more than `depth`, if and only if there are no more
that were seen. -/
theorem getPeerlistHead_eq (m : PeerlistManager) (depth : Nat) :
    let seen := m.white.toList.reverse.filter fun vl => vl.lastSeen ≠ 0
    (m.getPeerlistHead depth = seen.take (min depth seen.length) ∧
      (m.getPeerlistHead depth).length ≤ depth ∧
      (m.getPeerlistHead depth).Pairwise fun vl next => next.lastSeen ≤ vl.lastSeen) ↔
      (m.white.toList.filter fun vl => vl.lastSeen ≠ 0).length ≤ depth := by
  intro seen
  have hseen : (m.white.toList.filter fun vl => vl.lastSeen ≠ 0).length = seen.length := by
    rw [← length_reverse, ← filter_reverse]
  rw [hseen]
  constructor
  · rintro ⟨-, hlen, -⟩
    have hhead : min seen.length (depth + 1 - 0) ≤ depth := (le_length_headFrom _).trans hlen
    omega
  · intro hlen
    have hhead : m.getPeerlistHead depth = seen :=
      headFrom_eq_filter (by simpa [seen] using Nat.le_succ_of_le hlen)
    rw [hhead, min_eq_right hlen, take_length]
    exact ⟨rfl, hlen, (pairwise_reverse.mpr m.white.sorted).filter _⟩

/-- A white list with peers of different times. -/
def whiteList (times : List Nat) : PeerlistManager :=
  times.foldl (fun m time => m.setPeerJustSeen time 0 ⟨8, time⟩) (init false)

/-- Two entries too many are sent. -/
theorem peerlist_head_too_long :
    ((whiteList [1, 2, 3]).getPeerlistHead 1).map PeerlistEntry.lastSeen =
    [3, 2, 1] := by
  decide

/-- The times of an accepted list are shifted to the clock of the node. They are in the past and in
the order of the message if and only if no entry would have been seen before the beginning of
time. -/
theorem merged_in_the_past (m : PeerlistManager) (peerlist : List PeerlistEntry)
    (localTime : Int) (now : Nat) {m' : PeerlistManager} (hnow : now < 2 ^ 63)
    (h : m.handleRemotePeerlist peerlist localTime now = .ok (true, m')) :
    ∃ shift : Nat → Nat,
      fixTimeDelta peerlist localTime now =
        .ok (some (peerlist.map fun be => { be with lastSeen := shift be.lastSeen })) ∧
      m' = m.mergePeerlist (peerlist.map fun be => { be with lastSeen := shift be.lastSeen }) ∧
      ((∀ be ∈ peerlist, shift be.lastSeen ≤ now ∧
        ∀ be' ∈ peerlist, shift be.lastSeen ≤ shift be'.lastSeen ↔ be.lastSeen ≤ be'.lastSeen) ↔
        ∀ be ∈ peerlist, localTime % word64 ≤ be.lastSeen + now) := by
  refine ⟨fun time => ((time + (now - localTime)) % word64).toNat, ?_⟩
  unfold handleRemotePeerlist at h
  split at h
  · cases h
  · cases h
  rename_i fixed hfixed
  cases h
  have hfixed' := hfixed
  unfold fixTimeDelta at hfixed
  dsimp only at hfixed
  split at hfixed
  · cases hfixed
  split at hfixed
  · cases hfixed
  rename_i hpast
  cases hfixed
  refine ⟨hfixed', rfl, ?_⟩
  have hle : ∀ be ∈ peerlist, (be.lastSeen : Int) ≤ localTime % word64 := fun be hbe =>
    not_lt.mp fun hlt => hpast (any_eq_true.mpr ⟨be, hbe, by simpa using hlt⟩)
  -- the shifted times, without the remainder
  have hshift : ∀ be ∈ peerlist, ((be.lastSeen + (now - localTime)) % word64).toNat =
      if localTime % word64 ≤ be.lastSeen + now then be.lastSeen + now - localTime % word64
      else be.lastSeen + now - localTime % word64 + word64 := by
    intro be hbe
    have hseen := hle be hbe
    unfold word64 at *
    split <;> omega
  constructor
  · intro hall be hbe
    by_contra hyoung
    have hnow := (hall be hbe).1
    have heq := hshift be hbe
    rw [if_neg hyoung] at heq
    dsimp only at hnow
    unfold word64 at *
    omega
  · intro hage be hbe
    have heq := hshift be hbe
    have hseen := hle be hbe
    rw [if_pos (hage be hbe)] at heq
    refine ⟨by dsimp only; omega, fun be' hbe' => ?_⟩
    have heq' := hshift be' hbe'
    rw [if_pos (hage be' hbe')] at heq'
    dsimp only
    omega

/-- A list of two entries. -/
theorem merged_in_the_past_entries : ∃ (m' : PeerlistManager) (shift : Nat → Nat),
    (init false).handleRemotePeerlist [⟨⟨8, 80⟩, 0, 70⟩, ⟨⟨9, 80⟩, 0, 60⟩] 90 100 = .ok (true, m') ∧
      m' = (init false).mergePeerlist [⟨⟨8, 80⟩, 0, shift 70⟩, ⟨⟨9, 80⟩, 0, shift 60⟩] ∧
      shift 70 ≤ 100 ∧ shift 60 < shift 70 := by
  obtain ⟨shift, -, hmerged, hshift⟩ :=
    merged_in_the_past (init false) [⟨⟨8, 80⟩, 0, 70⟩, ⟨⟨9, 80⟩, 0, 60⟩] 90 100 (by decide) rfl
  obtain ⟨hpast, horder⟩ := hshift.mpr (by decide) _ mem_cons_self
  refine ⟨_, shift, rfl, hmerged, hpast, not_le.mp fun hle => ?_⟩
  exact absurd ((horder _ (mem_cons_of_mem _ mem_cons_self)).mp hle) (by decide)

/-- A negative time passes as the latest of all. -/
theorem peerlist_from_the_future : ∃ m', (init false).handleRemotePeerlist [⟨⟨8, 80⟩, 0, 70⟩]
    (-1) 100 = .ok (true, m') ∧ m'.gray.toList.map PeerlistEntry.lastSeen = [171] :=
  ⟨_, rfl, rfl⟩

end DarknetCoin
