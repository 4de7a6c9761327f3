import DarknetCoin.Model.SwappedVector

/-!
# The block store is a vector

The files of a `SwappedVector` begin with the serialised items, and with their number and lengths;
the cached items are those of the list. Every member function keeps this and answers as a plain
vector does, as long as the lengths fit in 32 bits. `open` on an object that is in use does not.
-/

namespace DarknetCoin

open Data Semantics Program FileStream LittleEndian List Outcome

namespace SwappedVector

variable {T : Type} (codec : Codec T) {v : SwappedVector T} {items : List T}

/-- The lengths of the serialised items. -/
def lengths (items : List T) : List Nat := items.map fun item => (codec.encode item).length

/-- The items, serialised one behind another. -/
def contents (items : List T) : List UInt8 := (items.map codec.encode).flatten

/-- The lengths as the indexes file stores them. -/
def sizes (items : List T) : List UInt8 :=
  (items.map fun item => encode 4 (codec.encode item).length).flatten

/-- The vector stands for the given items: the files begin with them, the offsets are those of the
items, and what is cached is right. -/
structure Represents (v : SwappedVector T) (items : List T) : Prop where
  itemsFile : ∃ rest p, v.itemsFile = .ready (contents codec items ++ rest) p
  indexesFile : ∃ rest p, v.indexesFile =
    .ready (encode 8 items.length ++ sizes codec items ++ rest) p
  offsets : v.offsets = starts 0 (lengths codec items)
  itemsFileSize : v.itemsFileSize = (contents codec items).length
  fits : items.length < 2 ^ 64
  pool : 0 < v.poolSize
  linked : v.cache.Linked
  faithful : v.cache.Faithful fun i => items[i]?
  bounded : v.cache.items.length ≤ v.poolSize

theorem contents_append (item : T) :
    contents codec (items ++ [item]) = contents codec items ++ codec.encode item := by
  simp [contents]

theorem sizes_append (item : T) :
    sizes codec (items ++ [item]) = sizes codec items ++ encode 4 (codec.encode item).length := by
  simp [sizes]

theorem length_contents : (contents codec items).length = (lengths codec items).sum := by
  rw [contents, length_flatten, map_map]
  rfl

@[simp] theorem length_sizes (items : List T) : (sizes codec items).length = 4 * items.length := by
  induction items with
  | nil => rfl
  | cons item items ih =>
    rw [sizes, map_cons, flatten_cons, length_append]
    change 4 + (sizes codec items).length = 4 * (items.length + 1)
    omega

theorem starts_lengths_append (item : T) : starts 0 (lengths codec (items ++ [item])) =
      starts 0 (lengths codec items) ++ [(contents codec items).length] := by
  rw [lengths, map_append, starts_append, length_contents, zero_add]
  rfl

theorem drop_contents {i : Nat} {item : T} (h : items[i]? = some item) (rest : List UInt8) :
    (contents codec items ++ rest).drop ((starts 0 (lengths codec items)).getD i 0) =
      codec.encode item ++ ((contents codec (items.drop (i + 1))) ++ rest) := by
  obtain ⟨hi, hitem⟩ := List.getElem?_eq_some_iff.mp h
  have hstart : (starts 0 (lengths codec items)).getD i 0 = ((lengths codec items).take i).sum := by
    rw [getD_eq_getElem?_getD, getElem?_starts (by simpa [lengths] using hi)]
    simp
  have hsplit : contents codec items = contents codec (items.take i) ++ contents codec
      (items.drop i) := by
    simp [contents, ← flatten_append]
  have hlen : (contents codec (items.take i)).length = ((lengths codec items).take i).sum := by
    rw [length_contents, lengths, lengths, map_take]
  have hhead : contents codec (items.drop i) = codec.encode item ++ contents codec
      (items.drop (i + 1)) := by
    rw [drop_eq_getElem_cons hi, hitem, contents, map_cons]
    rfl
  rw [hstart, hsplit, hhead, ← hlen, append_assoc, drop_left, append_assoc]

variable {codec}

theorem subscript_of_miss {bytes : List UInt8} {p i : Nat} {item : T}
    (hfind : v.cache.find? i = none) (hlt : i < v.size) (hfile : v.itemsFile = .ready bytes p)
    (hread : codec.decode (bytes.drop (v.offsets.getD i 0)) = .item item) :
    subscript codec i v = .done item
      { v with
        itemsFile := .ready bytes (v.offsets.getD i 0)
        cache := v.cache.store v.poolSize i item
        cacheMisses := v.cacheMisses + 1 } := by
  simp only [subscript, bind_run, get_run, andThen_done, hfind, not_le.mpr hlt, hfile,
    seek_ready, remaining_ready, hread]
  rfl

namespace Represents

variable (h : Represents codec v items)
include h

theorem size_eq : v.size = items.length := by
  rw [size, h.offsets, length_starts, lengths, length_map]

theorem subscript_of_getElem? (hcodec : codec.RoundTrips) {i : Nat} {item : T}
    (hi : items[i]? = some item) :
    ∃ v', subscript codec i v = .done item v' ∧ Represents codec v' items := by
  obtain ⟨rest, p, hfile⟩ := h.itemsFile
  cases hfind : v.cache.find? i with
  | some cached =>
    -- a hit: what is cached is the item
    have hcached : items[i]? = some cached := h.faithful.find? hfind
    rw [hi] at hcached
    cases hcached
    have hrun : subscript codec i v = .done item
        { v with cache := v.cache.touch i, cacheHits := v.cacheHits + 1 } := by
      simp only [subscript, bind_run, get_run, andThen_done, hfind]
      rfl
    exact ⟨_, hrun, { h with
      linked := h.linked.touch (h.linked.mem_order hfind)
      faithful := h.faithful.touch i
      bounded := by simpa using h.bounded }⟩
  | none =>
    -- a miss: the file is read where the item was written
    have hlt : i < v.size := by
      rw [h.size_eq]
      exact (List.getElem?_eq_some_iff.mp hi).1
    have hread : codec.decode ((contents codec items ++ rest).drop (v.offsets.getD i 0)) =
        .item item := by
      rw [h.offsets, drop_contents codec hi, hcodec]
    have hrun := subscript_of_miss hfind hlt hfile hread
    exact ⟨_, hrun, { h with
      itemsFile := ⟨rest, _, rfl⟩
      linked := h.linked.store v.poolSize (h.linked.notMem_order hfind) item
      faithful := h.faithful.store v.poolSize hi
      bounded := h.linked.length_store h.pool h.bounded i item }⟩

theorem find?_eq_none {i : Nat} (hi : items.length ≤ i) : v.cache.find? i = none := by
  refine Option.eq_none_iff_forall_ne_some.mpr fun cached hfind => ?_
  have hcached : items[i]? = some cached := h.faithful.find? hfind
  rw [getElem?_eq_none hi] at hcached
  cases hcached

theorem subscript_of_le {i : Nat} (hi : items.length ≤ i) : subscript codec i v = .thrown v := by
  have hsize : v.size ≤ i := by rwa [h.size_eq]
  simp [subscript, bind_run, h.find?_eq_none hi, hsize]

theorem value?_subscript (hcodec : codec.RoundTrips) (i : Nat) : (subscript codec i v).value? =
    items[i]? := by
  cases hi : items[i]? with
  | some item =>
    obtain ⟨v', hrun, -⟩ := h.subscript_of_getElem? hcodec hi
    rw [hrun]
    rfl
  | none =>
    rw [h.subscript_of_le (getElem?_eq_none_iff.mp hi)]
    rfl

omit h in
theorem nil (hfile : ∃ bytes p, v.itemsFile = .ready bytes p)
    (hidx : ∃ rest p, v.indexesFile = .ready (encode 8 0 ++ rest) p) (hoffsets : v.offsets = [])
    (hsize : v.itemsFileSize = 0) (hpool : 0 < v.poolSize) (hcache : v.cache = .empty) :
    Represents codec v [] where
  itemsFile := hfile
  indexesFile := by simpa [sizes] using hidx
  offsets := hoffsets
  itemsFileSize := hsize
  fits := Nat.two_pow_pos 64
  pool := hpool
  linked := hcache ▸ .empty
  faithful := hcache ▸ .empty
  bounded := hcache ▸ Nat.zero_le _

omit h in
/-- Rewriting the count leaves the lengths behind it as they are. -/
theorem writeCount_run {lengths rest : List UInt8} {p old count : Nat}
    (hfile : v.indexesFile = .ready (encode 8 old ++ lengths ++ rest) p) :
    writeCount count v = .done ()
      { v with indexesFile := .ready (encode 8 count ++ lengths ++ rest) 8 } := by
  have hover : overwrite (encode 8 old ++ lengths ++ rest) 0
      (encode 8 count) = encode 8 count ++ lengths ++ rest := by
    rw [append_assoc, overwrite_zero, append_assoc]
    simp
  simp only [writeCount, bind_run, modify_run, hfile, seek_ready, write_ready, hover]
  rfl

theorem clear_run : ∃ v', clear v = .done () v' ∧ Represents codec v' [] := by
  obtain ⟨rest, p, hfile⟩ := h.itemsFile
  obtain ⟨rest', p', hidx⟩ := h.indexesFile
  have hgood : v.indexesFile.good = true := by rw [hidx]; rfl
  have hrun : clear v = .done ()
      { v with
        indexesFile := .ready (encode 8 0 ++ sizes codec items ++ rest') 8
        offsets := []
        itemsFileSize := 0
        cache := .empty } := by
    simp [clear, bind_run, hgood, writeCount_run hidx]
  exact ⟨_, hrun, .nil ⟨_, p, hfile⟩ ⟨_, 8, by rw [append_assoc]⟩ rfl rfl h.pool rfl⟩

omit h in
/-- A pop takes off the last item. -/
theorem popBack_run {item : T} (h : Represents codec v (items ++ [item])) :
    ∃ v', popBack v = .done () v' ∧ Represents codec v' items := by
  obtain ⟨rest, p, hfile⟩ := h.itemsFile
  obtain ⟨rest', p', hidx⟩ := h.indexesFile
  have hgood : v.indexesFile.good = true := by rw [hidx]; rfl
  have hoffsets := h.offsets
  rw [starts_lengths_append] at hoffsets
  have hlast : v.offsets.getLast? = some (contents codec items).length := by
    rw [hoffsets, getLast?_concat]
  have hdrop : v.offsets.dropLast = starts 0 (lengths codec items) := by
    rw [hoffsets, dropLast_concat]
  have hlen : (starts 0 (lengths codec items)).length = items.length := by
    rw [length_starts, lengths, length_map]
  have hfits := h.fits
  rw [length_append] at hfits
  have hcount : (v.size + 2 ^ 64 - 1) % 2 ^ 64 = items.length := by
    rw [h.size_eq, length_append, length_singleton]
    omega
  have hcache : (if (v.cache.find? items.length).isSome then v.cache.erase items.length
      else v.cache) = v.cache.erase items.length := by
    cases hfind : v.cache.find? items.length with
    | none => exact (h.linked.erase_of_find?_eq_none hfind).symm
    | some cached => rfl
  have hrun : popBack v = .done ()
      { v with
        indexesFile := .ready (encode 8 items.length ++ sizes codec (items ++ [item]) ++ rest') 8
        itemsFileSize := (contents codec items).length
        offsets := starts 0 (lengths codec items)
        cache := v.cache.erase items.length } := by
    simp only [popBack, bind_run, get_run, andThen_done, hgood,
      Bool.not_true, Bool.false_eq_true, if_false, hcount, writeCount_run hidx,
      hlast, modify_run, hdrop, hlen, hcache]
  refine ⟨_, hrun, ?_⟩
  constructor
  · exact ⟨codec.encode item ++ rest, p, by rw [hfile, contents_append, append_assoc]⟩
  · exact ⟨encode 4 (codec.encode item).length ++ rest', 8, by
      simp only [sizes_append, append_assoc]⟩
  · rfl
  · rfl
  · exact Nat.lt_of_succ_lt hfits
  · exact h.pool
  · exact h.linked.erase items.length
  · -- without the entry of the popped item, every entry is of an item that is left
    apply (h.faithful.erase items.length).mono
    intro entry hentry hvalue
    have hne := LruCache.ne_of_mem_items_erase hentry
    have hlt := (List.getElem?_eq_some_iff.mp hvalue).1
    rw [length_append, length_singleton] at hlt
    rwa [getElem?_append_left (by omega)] at hvalue
  · exact (length_filter_le _ _).trans h.bounded

/-- A push appends to the items. -/
theorem pushBack_run (item : T) (hfits : items.length + 1 < 2 ^ 64) :
    ∃ v', pushBack codec item v = .done () v' ∧ Represents codec v' (items ++ [item]) := by
  obtain ⟨rest, p, hfile⟩ := h.itemsFile
  obtain ⟨rest', p', hidx⟩ := h.indexesFile
  -- the item goes behind the contents, its length behind the lengths
  have hitem : overwrite (contents codec items ++ rest) v.itemsFileSize (codec.encode item) =
      contents codec (items ++ [item]) ++ rest.drop (codec.encode item).length := by
    rw [h.itemsFileSize, overwrite_append_length, contents_append]
  have hlen : overwrite (encode 8 items.length ++ sizes codec items ++ rest')
      (8 + 4 * items.length) (encode 4 (codec.encode item).length) =
        encode 8 items.length ++ sizes codec (items ++ [item]) ++ rest'.drop 4 := by
    have hposition : 8 + 4 * items.length =
        (encode 8 items.length ++ sizes codec items).length := by simp
    rw [hposition, overwrite_append_length, sizes_append, length_encode,
      append_assoc _ (sizes codec items)]
  have hsize : (v.itemsFileSize + (codec.encode item).length) - v.itemsFileSize =
      (codec.encode item).length := Nat.add_sub_cancel_left _ _
  have hnew := h.find?_eq_none le_rfl
  have hrun : pushBack codec item v = .done ()
      { v with
        itemsFile := .ready (contents codec (items ++ [item]) ++
          rest.drop (codec.encode item).length) (v.itemsFileSize + (codec.encode item).length)
        indexesFile := .ready (encode 8 (items.length + 1) ++
          sizes codec (items ++ [item]) ++ rest'.drop 4) 8
        offsets := v.offsets ++ [v.itemsFileSize]
        itemsFileSize := v.itemsFileSize + (codec.encode item).length
        cache := v.cache.store v.poolSize items.length item } := by
    have hcount := h.size_eq
    rw [size] at hcount
    simp only [pushBack, size, bind_run, get_run, andThen_done, hfile,
      hidx, good_ready, Bool.not_true, Bool.false_eq_true, if_false,
      seek_ready, write_ready, tell_ready, Option.getD_some,
      modify_run, hitem, hsize, hcount, hlen, prepare]
    rw [writeCount_run rfl]
    simp [hcount]
  refine ⟨_, hrun, ?_⟩
  constructor
  · exact ⟨_, _, rfl⟩
  · exact ⟨_, 8, by rw [length_append]; rfl⟩
  · rw [starts_lengths_append, h.offsets, h.itemsFileSize]
  · rw [contents_append, length_append, h.itemsFileSize]
  · rw [length_append]
    exact hfits
  · exact h.pool
  · exact h.linked.store v.poolSize (h.linked.notMem_order hnew) item
  · apply LruCache.Faithful.store
    · apply h.faithful.mono
      intro entry _ hvalue
      have hlt := (List.getElem?_eq_some_iff.mp hvalue).1
      rwa [getElem?_append_left hlt]
    · simp
  · exact h.linked.length_store h.pool h.bounded _ _

end Represents

variable (codec) in
/-- The lengths that are read back. -/
def storedLengths (items : List T) : List Nat := (lengths codec items).map (· % 2 ^ 32)

/-- The loop of `open` sums up the lengths as they are stored. -/
theorem readOffsets_run (start rest : List UInt8) (offsets : List Nat) (itemsFileSize : Nat) :
    readOffsets items.length offsets itemsFileSize
    (.ready (start ++ sizes codec items ++ rest) start.length) =
      (some (offsets ++ starts itemsFileSize (storedLengths codec items),
        itemsFileSize + (storedLengths codec items).sum),
        .ready (start ++ sizes codec items ++ rest) (start.length + 4 * items.length)) := by
  induction items generalizing start offsets itemsFileSize with
  | nil => simp [readOffsets, storedLengths, lengths, starts]
  | cons item items ih =>
    have hbytes : start ++ sizes codec (item :: items) ++ rest =
        start ++ encode 4 (codec.encode item).length ++ (sizes codec items ++ rest) := by
      simp [sizes]
    have hread := read_of_append
      (encode 4 (codec.encode item).length) start (sizes codec items ++ rest)
    rw [length_encode] at hread
    have hnext := ih (start ++ encode 4 (codec.encode item).length)
      (offsets ++ [itemsFileSize]) (itemsFileSize + (codec.encode item).length % 2 ^ 32)
    rw [append_assoc _ (sizes codec items), length_append, length_encode] at hnext
    rw [hbytes, length_cons, readOffsets]
    simp only [hread, good_ready, if_true, decode_encode_eq_mod]
    have hstored : storedLengths codec (item :: items) =
        (codec.encode item).length % 2 ^ 32 :: storedLengths codec items := rfl
    have hmodulus : 256 ^ 4 = 2 ^ 32 := by norm_num
    rw [hmodulus, hnext, hstored, starts, sum_cons, append_assoc, singleton_append,
      add_assoc itemsFileSize, add_assoc start.length, Nat.mul_succ, add_comm 4]

/-- What a new vector makes of the files of a vector with the given items: the offsets come from
the lengths as they are stored. -/
structure Reopened (codec : Codec T) (v : SwappedVector T) (poolSize : Nat) (items : List T) :
    Prop where
  itemsFile : ∃ rest p, v.itemsFile = .ready (contents codec items ++ rest) p
  indexesFile : ∃ rest p, v.indexesFile =
    .ready (encode 8 items.length ++ sizes codec items ++ rest) p
  offsets : v.offsets = starts 0 (storedLengths codec items)
  itemsFileSize : v.itemsFileSize = (storedLengths codec items).sum
  poolSize : v.poolSize = poolSize
  cache : v.cache = .empty

variable {poolSize : Nat} {call : Call T}

theorem reopened_openFiles (h : Represents codec v items) (hpos : 0 < poolSize) :
    ∃ v', (unopened v.itemsFile.file v.indexesFile.file).openFiles poolSize = (true, v') ∧
      Reopened codec v' poolSize items := by
  obtain ⟨rest, p, hfile⟩ := h.itemsFile
  obtain ⟨rest', p', hidx⟩ := h.indexesFile
  have hread := read_of_append (encode 8 items.length) [] (sizes codec items ++ rest')
  simp only [nil_append, length_encode, length_nil, ← append_assoc] at hread
  have hloop := @readOffsets_run T codec items (encode 8 items.length) rest' [] 0
  simp only [length_encode, nil_append, zero_add] at hloop
  have hcount : decode (encode 8 items.length) = items.length := decode_encode h.fits
  have hopen : (unopened v.itemsFile.file v.indexesFile.file).openFiles poolSize = (true, opened
        { (unopened none none : SwappedVector T) with
          itemsFile := .ready (contents codec items ++ rest) 0
          indexesFile := .ready (encode 8 items.length ++ sizes codec items ++ rest')
            (8 + 4 * items.length)
          offsets := starts 0 (storedLengths codec items)
          itemsFileSize := (storedLengths codec items).sum } poolSize) := by
    simp only [openFiles, openExisting, unopened, hfile, hidx, file_ready,
      openBoth_attach, good_ready, Bool.and_self, if_true, hread, hcount,
      hloop, hpos.ne', if_false]
  exact ⟨_, hopen, ⟨rest, 0, rfl⟩, ⟨rest', _, rfl⟩, rfl, rfl, rfl, rfl⟩

/-- If the lengths fit in 32 bits, nothing is lost. -/
theorem Reopened.represents (h : Reopened codec v poolSize items)
    (hpos : 0 < poolSize) (hfits : items.length < 2 ^ 64)
    (hshort : ∀ item ∈ items, (codec.encode item).length < 2 ^ 32) : Represents codec v items := by
  have hstored : storedLengths codec items = lengths codec items := by
    apply (map_congr_left _).trans (map_id (lengths codec items))
    intro length hlen
    obtain ⟨item, hitem, rfl⟩ := mem_map.mp hlen
    exact Nat.mod_eq_of_lt (hshort item hitem)
  constructor
  · exact h.itemsFile
  · exact h.indexesFile
  · rw [h.offsets, hstored]
  · rw [h.itemsFileSize, hstored, length_contents]
  · exact hfits
  · rwa [h.poolSize]
  · rw [h.cache]
    exact .empty
  · rw [h.cache]
    exact .empty
  · rw [h.cache]
    exact Nat.zero_le _

theorem represents_start (codec : Codec T) (itemsFile : Option (List UInt8)) (hpos : 0 < poolSize) :
    Represents codec ((unopened itemsFile none).openFiles poolSize).2 [] := by
  -- whether or not there is an items file, the second branch is taken and leaves both files open
  obtain ⟨bytes, hopen⟩ : ∃ bytes, (unopened itemsFile none).openFiles poolSize = (true, opened
        { (unopened none none : SwappedVector T) with
          itemsFile := .ready bytes 0
          indexesFile := .ready (encode 8 0) 0 } poolSize) := by
    cases itemsFile with
    | none => exact ⟨[], by simp only [openFiles, hpos.ne']; rfl⟩
    | some bytes => exact ⟨bytes, by simp only [openFiles, hpos.ne']; rfl⟩
  rw [hopen]
  exact .nil ⟨bytes, 0, rfl⟩ ⟨[], 0, rfl⟩ rfl rfl hpos rfl

/-- The store is reopened by a new object only, with items whose lengths fit in the indexes file,
and it has room for what is pushed. -/
def Call.Sound (codec : Codec T) : Call T → List T → Prop
  | .pushBack _, items => items.length + 1 < 2 ^ 64
  | .reopen _, _ => False
  | .restart _, items => ∀ item ∈ items, (codec.encode item).length < 2 ^ 32
  | _, _ => True

section

variable (hcodec : codec.RoundTrips) (h : Represents codec v items)
  (hpermitted : call.Permitted items) (hsound : call.Sound codec items)
include hcodec h hpermitted hsound

/-- A sound call answers what a plain vector answers and leaves what it leaves. -/
theorem Represents.perform : ∃ v', Represents codec v' (call.onVector items) ∧
    perform codec call v =
        match call.reply items with
        | some reply => .done reply v'
        | none => .thrown v' := by
  cases call with
  | pushBack item =>
    obtain ⟨v', hrun, h'⟩ := h.pushBack_run item hsound
    exact ⟨v', h', by rw [perform, bind_run, hrun]; rfl⟩
  | popBack =>
    obtain ⟨front, item, rfl⟩ := (eq_nil_or_concat items).resolve_left hpermitted
    rw [concat_eq_append] at h ⊢
    obtain ⟨v', hrun, h'⟩ := h.popBack_run
    refine ⟨v', ?_, by rw [perform, bind_run, hrun]; rfl⟩
    rwa [Call.onVector, dropLast_concat]
  | clear =>
    obtain ⟨v', hrun, h'⟩ := h.clear_run
    exact ⟨v', h', by rw [perform, bind_run, hrun]; rfl⟩
  | subscript i =>
    cases hi : items[i]? with
    | some item =>
      obtain ⟨v', hrun, h'⟩ := h.subscript_of_getElem? hcodec hi
      refine ⟨v', h', ?_⟩
      rw [perform, bind_run, hrun, Call.reply, hi]
      rfl
    | none =>
      refine ⟨v, h, ?_⟩
      rw [perform, bind_run, h.subscript_of_le (getElem?_eq_none_iff.mp hi), Call.reply, hi]
      rfl
  | close => exact ⟨v, h, rfl⟩
  | reopen poolSize => exact hsound.elim
  | restart poolSize =>
    obtain ⟨v', hopen, h'⟩ := reopened_openFiles h hpermitted
    refine ⟨v', h'.represents hpermitted h.fits hsound, ?_⟩
    rw [perform, bind_run, modifyGet_run, hopen]
    rfl

theorem Represents.of_leaves {v' : SwappedVector T}
    (hcall : (SwappedVector.perform codec call v).Leaves v') :
    Represents codec v' (call.onVector items) := by
  obtain ⟨after, hafter, hrun⟩ := h.perform hcodec hpermitted hsound
  rw [hrun] at hcall
  -- an access out of range throws; every other call returns
  cases hreply : call.reply items with rw [hreply] at hcall
  | some reply =>
    cases hcall
    exact hafter
  | none =>
    cases hcall
    exact hafter

end

theorem represents_of_run (hcodec : codec.RoundTrips) (h : Run codec (Call.Sound codec) v items) :
    Represents codec v items := by
  induction h with
  | start hpos => exact represents_start codec _ hpos
  | step _ hpermitted hok hcall ih => exact ih.of_leaves hcodec hpermitted hok hcall

/-- After any sound calls the size of the store, its items and the answers to further calls are
those of a plain vector, an access out of range throws, and the cache keeps within the pool size. -/
theorem vector_of_run (hcodec : codec.RoundTrips) (h : Run codec (Call.Sound codec) v items) :
    v.size = items.length ∧ (∀ i item, items[i]? = some item → (subscript codec i v).value? =
      some item) ∧ (∀ i, v.size ≤ i → subscript codec i v = .thrown v) ∧
      v.cache.items.length ≤ v.poolSize ∧
      ∀ call : Call T, call.Permitted items → call.Sound codec items →
      (perform codec call v).isStuck = false ∧
          (perform codec call v).value? = call.reply items := by
  have hrep := represents_of_run hcodec h
  refine ⟨hrep.size_eq, ?_, ?_, hrep.bounded, ?_⟩
  · intro i item hi
    rw [hrep.value?_subscript hcodec, hi]
  · intro i hi
    rw [hrep.size_eq] at hi
    exact hrep.subscript_of_le hi
  · intro call hpermitted hsound
    obtain ⟨v', _, hrun⟩ := hrep.perform hcodec hpermitted hsound
    rw [hrun]
    cases call.reply items with
    | some reply => exact ⟨rfl, rfl⟩
    | none => exact ⟨rfl, rfl⟩

/-- Items of one byte. -/
def byteCodec : Codec UInt8 where
  encode byte := [byte]
  decode
    | [] => .truncated
    | byte :: _ => .item byte

theorem roundTrips_byteCodec : byteCodec.RoundTrips := fun _ _ => rfl

/-- Three items in a pool of one, the last one popped, and a new object on the files. -/
theorem vector_of_run_restarted :
    ∃ v : SwappedVector UInt8, Run byteCodec (Call.Sound byteCodec) v [7, 8] ∧
      v.size = 2 ∧ (subscript byteCodec 0 v).value? = some 7 ∧
      subscript byteCodec 2 v = .thrown v ∧ v.cache.items.length ≤ v.poolSize := by
  have hstart : Run byteCodec (Call.Sound byteCodec) ((unopened none none).openFiles 1).2 [] :=
    .start (by decide)
  have hroom {items : List UInt8} (item : UInt8) (h : items.length < 3) :
      (Call.pushBack item).Sound byteCodec items := by
    change items.length + 1 < 2 ^ 64
    omega
  have hpushed :=
    ((hstart.then (.pushBack 7) trivial (hroom 7 (by decide)) (by decide +kernel)).then
    (.pushBack 8) trivial (hroom 8 (by decide)) (by decide +kernel)).then
    (.pushBack 9) trivial (hroom 9 (by decide)) (by decide +kernel)
  have hpopped := hpushed.then .popBack (by decide) trivial (by decide +kernel)
  have hrun := hpopped.then (.restart 1) one_pos (fun _ _ => by norm_num [byteCodec])
    (by decide +kernel)
  obtain ⟨hsize, hitems, hrange, hcache, _⟩ := vector_of_run roundTrips_byteCodec hrun
  exact ⟨_, hrun, hsize, hitems 0 7 rfl, hrange 2 (by rw [hsize]; decide), hcache⟩

/-- The files of a call that is interrupted: before its first write, in the write of the item,
behind the contents, in the write of its length, or after that of the count. -/
inductive Interrupted (codec : Codec T) (v : SwappedVector T) : Call T → SwappedVector T → Prop
  | unwritten (call : Call T) : Interrupted codec v call v
  | item (item : T) (k : Nat) : Interrupted codec v (.pushBack item)
      { v with itemsFile := (v.itemsFile.seek v.itemsFileSize).write ((codec.encode item).take k) }
  | length (item : T) (k : Nat) : Interrupted codec v (.pushBack item)
      { v with
        itemsFile := (v.itemsFile.seek v.itemsFileSize).write (codec.encode item)
        indexesFile := (v.indexesFile.seek (8 + 4 * v.size)).write
          ((encode 4 (codec.encode item).length).take k) }
  | finished {call : Call T} {v' : SwappedVector T} (h : (perform codec call v).Leaves v') :
      Interrupted codec v call v'

variable (h : Represents codec v items)
include h

/-- Bytes behind the contents are no item. -/
theorem Represents.writeItem (bytes : List UInt8) : Represents codec
      { v with itemsFile := (v.itemsFile.seek v.itemsFileSize).write bytes } items := by
  obtain ⟨rest, p, hfile⟩ := h.itemsFile
  refine { h with itemsFile := ?_ }
  rw [hfile, seek_ready, write_ready, h.itemsFileSize, overwrite_append_length, append_assoc]
  exact ⟨_, _, rfl⟩

/-- A length behind those that the count covers is not read. -/
theorem Represents.writeLength (bytes : List UInt8) : Represents codec
      { v with indexesFile := (v.indexesFile.seek (8 + 4 * v.size)).write bytes } items := by
  obtain ⟨rest, p, hidx⟩ := h.indexesFile
  have hposition : 8 + 4 * v.size = (encode 8 items.length ++ sizes codec items).length := by
    simp [h.size_eq]
  refine { h with indexesFile := ?_ }
  rw [hidx, seek_ready, write_ready, hposition, overwrite_append_length, append_assoc]
  exact ⟨_, _, rfl⟩

/-- The count is written last, so files left by an interrupted call hold the vector from before
the call or the one from after it. -/
theorem Represents.interrupted (hcodec : codec.RoundTrips) (hpermitted : call.Permitted items)
    (hsound : call.Sound codec items) {w : SwappedVector T} (hw : Interrupted codec v call w) :
    ∃ after, (after = items ∨ after = call.onVector items) ∧ Represents codec w after := by
  cases hw with
  | unwritten => exact ⟨_, .inl rfl, h⟩
  | item => exact ⟨_, .inl rfl, h.writeItem _⟩
  | length => exact ⟨_, .inl rfl, (h.writeItem _).writeLength _⟩
  | finished hcall => exact ⟨_, .inr rfl, h.of_leaves hcodec hpermitted hsound hcall⟩

omit h

/-- Whenever the process stops in a call, a new object on the files is the vector from before the
call or the one from after it. -/
theorem interrupted_atomic (hcodec : codec.RoundTrips) (h : Run codec (Call.Sound codec) v items)
    {call : Call T} (hpermitted : call.Permitted items) (hsound : call.Sound codec items)
    (hshort : ∀ item, item ∈ items ∨ item ∈ call.onVector items →
      (codec.encode item).length < 2 ^ 32)
    {w : SwappedVector T} (hw : Interrupted codec v call w) {poolSize : Nat} (hpos : 0 < poolSize) :
    ∃ v' after, (unopened w.itemsFile.file w.indexesFile.file).openFiles poolSize = (true, v') ∧
      (after = items ∨ after = call.onVector items) ∧ v'.size = after.length ∧
      ∀ i, (subscript codec i v').value? = after[i]? := by
  obtain ⟨after, hafter, hrep⟩ :=
    (represents_of_run hcodec h).interrupted hcodec hpermitted hsound hw
  obtain ⟨v', hopen, hreopened⟩ := reopened_openFiles hrep hpos
  have h' := hreopened.represents hpos hrep.fits fun item hitem => hshort item <| by
    rcases hafter with rfl | rfl
    exacts [.inl hitem, .inr hitem]
  exact ⟨v', after, hopen, hafter, h'.size_eq, h'.value?_subscript hcodec⟩

/-- A second push that stops after the first byte of its item. -/
theorem interrupted_atomic_push :
    ∃ v w v' : SwappedVector UInt8, Run byteCodec (Call.Sound byteCodec) v [7] ∧
      Interrupted byteCodec v (.pushBack 8) w ∧
      (unopened w.itemsFile.file w.indexesFile.file).openFiles 1 = (true, v') ∧
      (v'.size = 1 ∨ v'.size = 2) := by
  have hstart : Run byteCodec (Call.Sound byteCodec) ((unopened none none).openFiles 1).2 [] :=
    .start one_pos
  have hrun := hstart.then (.pushBack 7) trivial (by simp [Call.Sound]) (by decide +kernel)
  obtain ⟨v', after, hopen, hafter, hsize, -⟩ := interrupted_atomic roundTrips_byteCodec hrun
    (by trivial) (by simp [Call.Sound, Call.onVector]) (by simp [byteCodec]) (.item 8 1) one_pos
  refine ⟨_, _, v', hrun, .item 8 1, hopen, ?_⟩
  rw [hsize]
  exact hafter.imp (congrArg length) (congrArg length)

/-- Items that take a given number of bytes, all of them the same. -/
def longCodec (n : Nat) : Codec Bool where
  encode flag := List.replicate (n + 1) (if flag then 1 else 0)
  decode
    | [] => .truncated
    | byte :: _ => .item (byte == 1)

theorem roundTrips_longCodec (n : Nat) : (longCodec n).RoundTrips := by
  intro flag rest
  cases flag with
  | false => rfl
  | true => rfl

/-- Calls of a user who never opens a vector that is in use. -/
def Call.OpensNew : Call T → List T → Prop
  | .reopen _, _ => False
  | _, _ => True

/-- Items of exactly as many bytes as a 32-bit length cannot tell are stored with length zero, so a
new object takes the first one for the second one. -/
theorem exists_openFiles_longCodec {n : Nat} (hn : n + 1 = 2 ^ 32) :
    ∃ v v', Run (longCodec n) Call.OpensNew v [true, false] ∧
      (unopened v.itemsFile.file v.indexesFile.file).openFiles 1 = (true, v') ∧
      (subscript (longCodec n) 1 v').value? = some true := by
  have hpush {v : SwappedVector Bool} {items : List Bool}
      (hrun : Run (longCodec n) Call.OpensNew v items) (h : Represents (longCodec n) v items)
      (flag : Bool) (hroom : items.length + 1 < 2 ^ 64) :
      ∃ v', Run (longCodec n) Call.OpensNew v' (items ++ [flag]) ∧
        Represents (longCodec n) v' (items ++ [flag]) := by
    obtain ⟨v', hcall, h'⟩ := h.pushBack_run flag hroom
    have hleaves : (perform (longCodec n) (.pushBack flag) v).Leaves v' := by
      rw [perform, bind_run, hcall]
      exact .done _ _
    exact ⟨v', hrun.step (by trivial) (by trivial) hleaves, h'⟩
  obtain ⟨v₁, hrun₁, h₁⟩ := hpush (.start one_pos) (represents_start (longCodec n) none one_pos)
    true (by decide)
  obtain ⟨v₂, hrun₂, h₂⟩ := hpush hrun₁ h₁ false (by decide)
  obtain ⟨v₃, hopen, h₃⟩ := reopened_openFiles h₂ one_pos
  -- both items begin at offset zero
  have hstored : storedLengths (longCodec n) ([] ++ [true] ++ [false]) = [0, 0] := by
    have hlen (flag : Bool) : ((longCodec n).encode flag).length = n + 1 := length_replicate
    change [((longCodec n).encode true).length % 2 ^ 32,
      ((longCodec n).encode false).length % 2 ^ 32] = [0, 0]
    rw [hlen, hlen, hn, Nat.mod_self]
  have hoffsets : v₃.offsets = [0, 0] := by
    rw [h₃.offsets, hstored]
    rfl
  obtain ⟨rest, p, hfile⟩ := h₃.itemsFile
  have hfind : v₃.cache.find? 1 = none := by
    rw [h₃.cache]
    rfl
  have hlt : 1 < v₃.size := by
    rw [size, hoffsets]
    decide
  have hread : (longCodec n).decode
      ((contents (longCodec n) ([] ++ [true] ++ [false]) ++ rest).drop (v₃.offsets.getD 1 0)) =
          .item true := by
    rw [hoffsets]
    rfl
  refine ⟨v₂, v₃, hrun₂, hopen, ?_⟩
  rw [subscript_of_miss hfind hlt hfile hread]
  rfl

/-- `open` on a vector that is in use refuses and leaves the indexes file failed, so that an item
pushed afterwards is lost; and items whose lengths do not fit in 32 bits are mixed up by a new
object. -/
theorem reopened_store_loses_items :
    (∃ v : SwappedVector UInt8, Run byteCodec (fun _ _ => True) v [7, 8] ∧ v.size = 1 ∧
      (subscript byteCodec 1 v).value? = none) ∧
    ∃ v : SwappedVector Bool, (longCodec 4294967295).RoundTrips ∧
      Run (longCodec 4294967295) Call.OpensNew v [true, false] ∧
      (subscript (longCodec 4294967295) 1 v).value? = some true := by
  constructor
  · have hstart : Run byteCodec (fun _ _ => True) ((unopened none none).openFiles 1).2 [] :=
      .start (by decide)
    have hreopened := ((hstart.then (.pushBack 7) trivial trivial (by decide +kernel)).then
      .close trivial trivial (by decide +kernel)).then (.reopen 1) one_pos trivial
      (by decide +kernel)
    have hrun := hreopened.then (.pushBack 8) trivial trivial (by decide +kernel)
    exact ⟨_, hrun, by decide +kernel, by decide +kernel⟩
  · obtain ⟨v, v', hrun, hopen, hitem⟩ :=
      exists_openFiles_longCodec (n := 4294967295) (by norm_num)
    have hleaves : (perform (longCodec 4294967295) (.restart 1) v).Leaves v' := by
      rw [perform, bind_run, modifyGet_run, hopen]
      exact .done _ _
    exact ⟨v', roundTrips_longCodec _, hrun.step (by exact one_pos) (by trivial) hleaves, hitem⟩

/-- A `clear` that stops before its write leaves two long items, and a new object takes the second
one for the first one. -/
theorem interrupted_clear_mixes_items :
    ∃ v v' : SwappedVector Bool, (longCodec 4294967295).RoundTrips ∧
      Run (longCodec 4294967295) Call.OpensNew v [true, false] ∧
      Interrupted (longCodec 4294967295) v .clear v ∧
      (unopened v.itemsFile.file v.indexesFile.file).openFiles 1 = (true, v') ∧
      (subscript (longCodec 4294967295) 1 v').value? = some true := by
  obtain ⟨v, v', hrun, hopen, hitem⟩ :=
    exists_openFiles_longCodec (n := 4294967295) (by norm_num)
  exact ⟨v, v', roundTrips_longCodec _, hrun, .unwritten _, hopen, hitem⟩

end SwappedVector

end DarknetCoin
