import SsaJit.Native.Pages
import SsaJit.X86.Machine

/-! Aligned blocks in memory. The header just in front of a block says where its mapping lies, and a
block is released by what its header says. -/

namespace SsaJit.Native

/-- Where a mapping lies: its first address and its length. -/
structure Extent where
  base : UInt64
  length : UInt64
  deriving DecidableEq, Repr

/-- Memory with what is mapped in it: the numbers of the mappings and where they lie. -/
structure Heap where
  pages : Pages := {}
  mem : X86.Memory := {}
  extents : List (Nat × Extent) := []

namespace Heap

open Pages (headerSize)

/-- A header in front of an address. -/
def writeHeader (mem : X86.Memory) (p : UInt64) (e : Extent) : X86.Memory :=
  (mem.writeWord (p - headerSize.toUInt64) 8 e.base).writeWord (p - 8) 8 e.length

/-- What the header in front of an address says. -/
def readHeader (mem : X86.Memory) (p : UInt64) : Extent :=
  ⟨mem.readWord (p - headerSize.toUInt64) 8, mem.readWord (p - 8) 8⟩

/-- An aligned block of at least `bytes` bytes, in a mapping that the system puts at `base`. The header
and the block are entered through positions in the mapping, which have to be inside it. -/
def allocate (h : Heap) (bytes alignment : Int64) (base : UInt64) : Outcome (Option UInt64 × Heap) :=
  match h.pages.allocate bytes alignment base with
  | none => .ok (none, h)
  | some (b, pages) =>
    let e : Extent := ⟨base, b.length.toUInt64⟩
    let offset := b.address - base
    if e.length ≤ offset - headerSize.toUInt64 ∨ e.length ≤ offset then .crash .outOfRange
    else .ok (some b.address,
      { pages, mem := writeHeader h.mem b.address e, extents := (h.pages.mapped, e) :: h.extents })

/-- An aligned block of zeros. -/
def allocateZero (h : Heap) (bytes alignment : Int64) (base : UInt64) :
    Outcome (Option UInt64 × Heap) := do
  match ← h.allocate bytes alignment base with
  | (none, h) => return (none, h)
  | (some p, h) =>
    let n := (if bytes ≤ 0 then 1 else bytes).toInt.toNat
    return (some p, { h with mem := h.mem.write p (List.replicate n 0) })

/-- Give a block's mapping back to the system, which takes nothing but a whole mapping. -/
def deallocate (h : Heap) : Option UInt64 → Outcome Heap
  | none => .ok h
  | some p =>
    match h.extents.find? fun m => m.2 = readHeader h.mem p with
    | none => .fail (.allocation "release: invalid argument")
    | some m => .ok { h with pages := h.pages.unmap m.1, extents := h.extents.erase m }

end Heap

end SsaJit.Native
