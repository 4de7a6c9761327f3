import DarknetCoin.Data.FileStream
import DarknetCoin.Data.Layout
import DarknetCoin.Data.LruCache
import DarknetCoin.Semantics.Program

/-!
# The block store

`SwappedVector.h`: a vector kept in two files. The items file holds the serialised items one behind
another, the indexes file a 64-bit count and a 32-bit length for every item. In memory there are the
offsets of the items and a cache. `pop_back` and `clear` only lower the count; `close` prints
statistics and closes nothing, so that `open` can meet streams that are open already.
-/

namespace DarknetCoin

open Data Semantics Program

/-- What the deserialiser of an item finds. -/
inductive Decoded (T : Type)
  | item (item : T)
  /-- The file ended before the item did. -/
  | truncated
  /-- The bytes are not those of an item. -/
  | malformed
  deriving DecidableEq

/-- The serialisation of items. -/
structure Codec (T : Type) where
  encode : T → List UInt8
  decode : List UInt8 → Decoded T

/-- What was written is read back, whatever follows it. -/
def Codec.RoundTrips {T : Type} (codec : Codec T) : Prop :=
  ∀ item rest, codec.decode (codec.encode item ++ rest) = .item item

/-- `SwappedVector`; `m_items` and `m_cache` are the two halves of `cache`. -/
structure SwappedVector (T : Type) where
  itemsFile : FileStream UInt8
  indexesFile : FileStream UInt8
  poolSize : Nat
  offsets : List Nat
  itemsFileSize : Nat
  cache : LruCache Nat T
  cacheHits : Nat
  cacheMisses : Nat

namespace SwappedVector

variable {T : Type} (codec : Codec T)

/-- A constructed vector that is to be opened on the given files. -/
def unopened (itemsFile indexesFile : Option (List UInt8)) : SwappedVector T where
  itemsFile := .attach itemsFile
  indexesFile := .attach indexesFile
  poolSize := 0
  offsets := []
  itemsFileSize := 0
  cache := .empty
  cacheHits := 0
  cacheMisses := 0

/-- The loop of `open` over the lengths in the indexes file. -/
def readOffsets : Nat → List Nat → Nat → FileStream UInt8 →
    Option (List Nat × Nat) × FileStream UInt8
  | 0, offsets, itemsFileSize, file => (some (offsets, itemsFileSize), file)
  | count + 1, offsets, itemsFileSize, file =>
    let itemSize := file.read 4
    if itemSize.2.good then
      readOffsets count (offsets ++ [itemsFileSize])
        (itemsFileSize + LittleEndian.decode itemSize.1) itemSize.2
    else
      (none, itemSize.2)

/-- The end of `open`. -/
def opened (v : SwappedVector T) (poolSize : Nat) : SwappedVector T :=
  { v with poolSize := poolSize, cache := .empty, cacheHits := 0, cacheMisses := 0 }

/-- The branch of `open` for two files that could be opened. -/
def openExisting (v : SwappedVector T) (poolSize : Nat) : Bool × SwappedVector T :=
  let count := v.indexesFile.read 8
  if count.2.good then
    match readOffsets (LittleEndian.decode count.1) [] 0 count.2 with
    | (some (offsets, itemsFileSize), file) =>
      (true, opened
        { v with indexesFile := file, offsets := offsets, itemsFileSize := itemsFileSize } poolSize)
    | (none, file) => (false, { v with indexesFile := file })
  else
    (false, { v with indexesFile := count.2 })

/-- The other branch of `open`. A file that could be opened still is, and then `openOut` fails. -/
def openCreating (v : SwappedVector T) (poolSize : Nat) : Bool × SwappedVector T :=
  let v := { v with
    itemsFile := v.itemsFile.openOut.close.openBoth
    indexesFile := v.indexesFile.openOut.write (LittleEndian.encode 8 0) }
  if v.indexesFile.good then
    (true, opened
      { v with
        indexesFile := v.indexesFile.close.openBoth
        offsets := []
        itemsFileSize := 0 } poolSize)
  else
    (false, v)

/-- `open`. -/
def openFiles (v : SwappedVector T) (poolSize : Nat) : Bool × SwappedVector T :=
  if poolSize = 0 then
    (false, v)
  else
    let v := { v with
      itemsFile := v.itemsFile.openBoth
      indexesFile := v.indexesFile.openBoth }
    if v.itemsFile.good && v.indexesFile.good then
      v.openExisting poolSize
    else
      v.openCreating poolSize

def size (v : SwappedVector T) : Nat := v.offsets.length

/-- `prepare`, and the assignment to the place it returns. -/
def prepare (v : SwappedVector T) (index : Nat) (item : T) : SwappedVector T :=
  { v with cache := v.cache.store v.poolSize index item }

/-- `operator[]`. Every access to the items file starts with a seek, so the position the
deserialiser leaves is not kept. -/
def subscript (index : Nat) : Program (SwappedVector T) T := do
  let v ← get
  match v.cache.find? index with
  | some item =>
    modify fun v =>
      { v with cache := v.cache.touch index, cacheHits := v.cacheHits + 1 }
    pure item
  | none =>
    if v.size ≤ index then
      throw
    else if !v.itemsFile.good then
      throw
    else
      let itemsFile := v.itemsFile.seek (v.offsets.getD index 0)
      match if itemsFile.good then codec.decode itemsFile.remaining else .truncated with
      | .item item =>
        modify fun v =>
          { prepare { v with itemsFile := itemsFile } index item with
            cacheMisses := v.cacheMisses + 1 }
        pure item
      | .truncated =>
        modify fun v => { v with itemsFile := { itemsFile with good := false } }
        throw
      | .malformed =>
        modify fun v => { v with itemsFile := itemsFile }
        throw

/-- Write the count at the beginning of the indexes file. -/
def writeCount (count : Nat) : Program (SwappedVector T) Unit := do
  modify fun v =>
    { v with indexesFile := (v.indexesFile.seek 0).write (LittleEndian.encode 8 count) }
  if !(← get).indexesFile.good then
    throw

def clear : Program (SwappedVector T) Unit := do
  if !(← get).indexesFile.good then
    throw
  writeCount 0
  modify fun v => { v with offsets := [], itemsFileSize := 0, cache := .empty }

/-- `pop_back`. The last offset of an empty vector is undefined. -/
def popBack : Program (SwappedVector T) Unit := do
  let v ← get
  if !v.indexesFile.good then
    throw
  writeCount ((v.size + 2 ^ 64 - 1) % 2 ^ 64)
  match v.offsets.getLast? with
  | none => undefined
  | some last =>
    modify fun v =>
      let offsets := v.offsets.dropLast
      { v with
        itemsFileSize := last
        offsets := offsets
        cache := if (v.cache.find? offsets.length).isSome
          then v.cache.erase offsets.length
          else v.cache }

/-- `push_back`. A failed `tellp` is minus one, as an unsigned number. -/
def pushBack (item : T) : Program (SwappedVector T) Unit := do
  let v ← get
  if !v.itemsFile.good then
    throw
  let itemsFile := (v.itemsFile.seek v.itemsFileSize).write (codec.encode item)
  let itemsFileSize := itemsFile.tell.getD (2 ^ 64 - 1)
  modify fun v => { v with itemsFile := itemsFile }
  if !v.indexesFile.good then
    throw
  -- the length is stored in 32 bits
  modify fun v =>
    { v with
      indexesFile := (v.indexesFile.seek (8 + 4 * v.size)).write
        (LittleEndian.encode 4 (itemsFileSize - v.itemsFileSize)) }
  if !(← get).indexesFile.good then
    throw
  writeCount (v.size + 1)
  modify fun v =>
    prepare
      { v with offsets := v.offsets ++ [v.itemsFileSize], itemsFileSize := itemsFileSize }
      v.size item

/-- The calls of a user. -/
inductive Call (T : Type)
  | pushBack (item : T)
  | popBack
  | clear
  | subscript (index : Nat)
  | close
  /-- `open` on the vector that is in use. -/
  | reopen (poolSize : Nat)
  /-- The vector is destroyed, and another one is opened on its files. -/
  | restart (poolSize : Nat)
  deriving DecidableEq

/-- What a call returns. -/
inductive Reply (T : Type)
  | nothing
  | item (item : T)
  | opened (success : Bool)
  deriving DecidableEq

/-- A call on the vector. -/
def perform : Call T → Program (SwappedVector T) (Reply T)
  | .pushBack item => do
    pushBack codec item
    pure .nothing
  | .popBack => do
    popBack
    pure .nothing
  | .clear => do
    clear
    pure .nothing
  | .subscript index => do
    let item ← subscript codec index
    pure (.item item)
  | .close => pure .nothing
  | .reopen poolSize => do
    let success ← modifyGet fun v => v.openFiles poolSize
    pure (.opened success)
  | .restart poolSize => do
    let success ← modifyGet fun v =>
      (unopened v.itemsFile.file v.indexesFile.file).openFiles poolSize
    pure (.opened success)

namespace Call

/-- What the call does to a plain vector. -/
def onVector : Call T → List T → List T
  | .pushBack item, items => items ++ [item]
  | .popBack, items => items.dropLast
  | .clear, _ => []
  | .subscript _, items => items
  | .close, items => items
  | .reopen _, items => items
  | .restart _, items => items

/-- What the call returns on a plain vector; an access out of range throws. -/
def reply : Call T → List T → Option (Reply T)
  | .pushBack _, _ => some .nothing
  | .popBack, _ => some .nothing
  | .clear, _ => some .nothing
  | .subscript index, items => items[index]?.map .item
  | .close, _ => some .nothing
  | .reopen _, _ => some (.opened true)
  | .restart _, _ => some (.opened true)

/-- A user pops only what is there and opens with a positive pool size. -/
def Permitted : Call T → List T → Prop
  | .popBack, items => items ≠ []
  | .reopen poolSize, _ => 0 < poolSize
  | .restart poolSize, _ => 0 < poolSize
  | _, _ => True

instance (call : Call T) (items : List T) : Decidable (call.Permitted items) := by
  cases call <;> unfold Permitted <;> infer_instance

end Call

/-- The vector `v` is reached by permitted calls that meet `Ok`, and `items` is the plain vector
after the same calls. The first `open` finds no indexes file. -/
inductive Run (Ok : Call T → List T → Prop) : SwappedVector T → List T → Prop
  | start {itemsFile : Option (List UInt8)} {poolSize : Nat} (hpos : 0 < poolSize) :
    Run Ok ((unopened itemsFile none).openFiles poolSize).2 []
  | step {v v' : SwappedVector T} {items : List T} {call : Call T} (h : Run Ok v items)
    (hpermitted : call.Permitted items) (hok : Ok call items)
    (hcall : (perform codec call v).Leaves v') : Run Ok v' (call.onVector items)

/-- A run goes on with the state that a call leaves. -/
theorem Run.then {codec : Codec T} {Ok : Call T → List T → Prop} {v : SwappedVector T}
    {items : List T} (h : Run codec Ok v items) (call : Call T) (hpermitted : call.Permitted items)
    (hok : Ok call items) (hcall : (perform codec call v).isStuck = false) :
    Run codec Ok ((perform codec call v).stateD v) (call.onVector items) :=
  .step h hpermitted hok (Outcome.leaves_stateD hcall)

end SwappedVector

end DarknetCoin
