import SsaJit.Fault

/-! Memory in whole pages: buffers for code, and aligned blocks with a header in front that records
the mapping they lie in. Sizes are 64-bit and their sums wrap. -/

namespace SsaJit.Native

/-- Why the system refuses to map a number of bytes, if it does: sizes below one make no sense, and
the address space has 47 bits. -/
def systemRefusal (bytes : Int64) : Option String :=
  if bytes ≤ 0 then some "invalid argument"
  else if 0x800000000000 ≤ bytes then some "cannot allocate memory"
  else none

/-- The system's pages: their size, its answers, which mappings exist and which were released. Mappings
are numbered in the order in which they are made. -/
structure Pages where
  pageSize : Int64 := 4096
  refusal : Int64 → Option String := systemRefusal
  /-- Why changes of protection are refused, if they are. -/
  protection : Option String := none
  mapped : Nat := 0
  live : List Nat := []
  /-- The latest first. A mapping that is released again is listed again. -/
  released : List Nat := []

namespace Pages

/-- Up to a whole number of pages. -/
def roundUp (p : Pages) (n : Int64) : Int64 := (n + p.pageSize - 1) &&& ~~~(p.pageSize - 1)

/-- Map bytes; the answer is the mapping's number. -/
def map (p : Pages) (bytes : Int64) : Except String (Nat × Pages) :=
  match p.refusal bytes with
  | some reason => .error reason
  | none => .ok (p.mapped, { p with mapped := p.mapped + 1, live := p.mapped :: p.live })

def unmap (p : Pages) (id : Nat) : Pages :=
  { p with live := p.live.erase id, released := id :: p.released }

/-! ## Code buffers -/

/-- A zeroed buffer of whole pages: its mapping and its length. -/
def allocateCode (p : Pages) (bytes : Int64) : Outcome (Nat × Nat × Pages) :=
  let n := p.roundUp (if bytes ≤ 0 then 1 else bytes)
  match p.map n with
  | .error reason => .fail (.allocation (decimal n.toInt ++ " bytes: " ++ reason))
  | .ok (id, p) => .ok (id, n.toInt.toNat, p)

/-- Make a buffer of some length executable. -/
def protect (p : Pages) (length : Nat) : Outcome Unit :=
  if length = 0 then .fail (.allocation "empty buffer")
  else match p.protection with
    | some reason => .fail (.allocation ("mprotect rx: " ++ reason))
    | none => .ok ()

/-! ## Aligned blocks -/

/-- Bytes of the header in front of a block. -/
def headerSize : Int64 := 16

/-- An aligned block inside a mapping. -/
structure Block where
  address : UInt64
  base : UInt64
  length : Int64
  deriving DecidableEq, Repr

/-- The alignment that is used for the one asked for. -/
def blockAlign (alignment : Int64) : Int64 := if alignment < headerSize then headerSize else alignment

/-- The first address in a mapping that has room for a header in front and is a multiple of the
alignment. -/
def blockAddress (base align : UInt64) : UInt64 :=
  (base + headerSize.toUInt64 + align - 1) &&& ~~~(align - 1)

/-- A block of at least `bytes` bytes in a mapping at `base`; none if the alignment is no power of
two or the system refuses. -/
def allocate (p : Pages) (bytes alignment : Int64) (base : UInt64) : Option (Block × Pages) :=
  let align := blockAlign alignment
  if align &&& (align - 1) ≠ 0 then none
  else
    let total := p.roundUp ((if bytes ≤ 0 then 1 else bytes) + align + headerSize)
    match p.map total with
    | .error _ => none
    | .ok (_, p) => some (⟨blockAddress base align.toUInt64, base, total⟩, p)

/-- Is a block's address a multiple of the alignment that was asked for? -/
def Block.isAligned (b : Block) (alignment : Int64) : Bool :=
  b.address % (blockAlign alignment).toUInt64 == 0

end Pages

end SsaJit.Native
