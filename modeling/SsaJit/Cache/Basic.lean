import SsaJit.Cache.Key
import SsaJit.Native.Routine

/-! A bounded cache of routines by key. Which routine a key has is kept apart from the order in which
the keys were used, the latest last; a new entry in a full cache takes the place of the one that was
used least recently. The cache holds one reference to each routine for every entry that has it. -/

namespace SsaJit.Cache

open Native

/-- Routines by number, with the pages they live in. -/
structure Store where
  routines : Array Routine := #[]
  pages : Pages := {}

/-- The routines of keys. A key has one entry at most, and the order of entries means nothing. -/
abbrev Entries := List (Key × Nat)

/-- The entries but the one of a key. -/
def Entries.without (es : Entries) (k : Key) : Entries := es.filter (·.1 != k)

/-- The entries with a routine for a key, in place of the one that was there. -/
def Entries.put (es : Entries) (k : Key) (i : Nat) : Entries := (k, i) :: es.without k

/-- A cache of routines in a store. -/
structure Cache where
  capacity : Nat
  entries : Entries := []
  /-- The keys in order of use, the latest last. -/
  order : List Key := []
  deriving DecidableEq, Repr

/-- Make a key the latest. -/
def Cache.touch (c : Cache) (k : Key) : Cache := { c with order := c.order.erase k ++ [k] }

/-- How many entries there are. -/
def Cache.length (c : Cache) : Nat := c.entries.length

/-- The capacity used where none is given. -/
def defaultCapacity : Nat := 128

/-- A cache of a capacity; below one it is the default. Room for all entries is reserved at once, so
there is a capacity that no memory holds. -/
def Cache.new (capacity : Int) : Outcome Cache :=
  if capacity ≤ 0 then .ok { capacity := defaultCapacity }
  else if 0x100000000000 < capacity then .crash .outOfRange
  else .ok { capacity := capacity.toNat }

/-- A cache for states of a shape. -/
def Cache.forStates (name : String) (shape : Shape) (capacity : Int) : Outcome Cache := do
  shape.check name
  Cache.new capacity

/-- What cache operations work on. An operation that fails keeps what it did before. -/
structure World where
  store : Store := {}
  cache : Cache

abbrev CacheM := ExceptT Fault (StateM World)

namespace CacheM

def liftOutcome {α : Type} (r : Outcome α) : CacheM α := ExceptT.mk (pure r)

def routine (i : Nat) : CacheM Routine := do
  match (← get).store.routines[i]? with
  | some r => return r
  | none => liftOutcome (.crash .outOfRange)

def setRoutine (i : Nat) (r : Routine) : CacheM Unit :=
  modify fun w => { w with store.routines := w.store.routines.setIfInBounds i r }

/-- Add a reference to a routine. -/
def bind (i : Nat) : CacheM Unit := do
  let r ← routine i
  setRoutine i (← liftOutcome r.bind)

/-- Drop a reference to a routine. -/
def unbind (i : Nat) : CacheM Bool := do
  let r ← routine i
  let (answer, r, pages) := r.unbind (← get).store.pages
  setRoutine i r
  modify fun w => { w with store.pages := pages }
  liftOutcome answer

def modifyCache (f : Cache → Cache) : CacheM Unit := modify fun w => { w with cache := f w.cache }

/-- The routine of a key. -/
def lookup (k : Key) : CacheM (Option Nat) := return (← get).cache.entries.lookup k

end CacheM

open CacheM

/-- The routine of a key, which becomes the latest. -/
def query (k : Key) : CacheM (Option Nat) := do
  match ← lookup k with
  | none => return none
  | some i =>
    modifyCache (·.touch k)
    return some i

/-- Take out the entry that was used least recently. -/
def evictOldest : CacheM Unit := do
  match (← get).cache.order with
  | [] => return
  | k :: rest =>
    let oldest ← lookup k
    modifyCache fun c => { c with entries := c.entries.without k, order := rest }
    let _ ← unbind (← liftOutcome (.need oldest))

/-- Put a routine in under a key, in place of the one that was there. -/
def add (k : Key) (i : Nat) : CacheM Unit := do
  CacheM.bind i
  match ← lookup k with
  | some old =>
    modifyCache fun c => { c with entries := c.entries.put k i }.touch k
    let _ ← unbind old
  | none =>
    let c := (← get).cache
    if c.capacity ≤ c.length then evictOldest
    modifyCache fun c => { c with entries := c.entries.put k i, order := c.order ++ [k] }

/-- The routine of a key, generated if it is not there; also whether it was. The generator's own
reference goes to the cache. -/
def getOrGenerate (k : Key) (gen : CacheM (Option Nat)) : CacheM (Nat × Bool) := do
  match ← query k with
  | some i => return (i, false)
  | none =>
    match ← gen with
    | none => liftOutcome (.fail .noRoutine)
    | some i =>
      add k i
      let _ ← unbind i
      return (i, true)

/-- Drop the reference of a key's entry. -/
def unbindEntry (k : Key) : CacheM Unit := do
  let _ ← unbind (← liftOutcome (.need (← lookup k)))

/-- Drop all entries. -/
def clear : CacheM Unit := do
  (← get).cache.order.forM unbindEntry
  modifyCache fun c => { c with entries := [], order := [] }

end SsaJit.Cache
