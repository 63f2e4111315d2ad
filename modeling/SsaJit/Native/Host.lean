import SsaJit.X86.Machine
import SsaJit.Fault
import SsaJit.Kind

/-! Calling native code. A call frame holds the argument registers before a call and the result
registers after it; the host keeps the memory that calls share. -/

namespace SsaJit.Native

open X86

/-- The registers that a call passes: six integers, eight vectors, and the results. -/
structure CallFrame where
  ints : Vector UInt64 6 := Vector.replicate 6 0
  vecs : Vector Xmm 8 := Vector.replicate 8 ⟨0, 0⟩
  retInt : UInt64 := 0
  retVec : Xmm := ⟨0, 0⟩
  deriving Inhabited

namespace CallFrame

def setInt (f : CallFrame) (i : Int) (w : UInt64) : Outcome CallFrame :=
  if h : 0 ≤ i ∧ i.toNat < 6 then .ok { f with ints := f.ints.set i.toNat w h.2 }
  else .crash .outOfRange

def setXmm (f : CallFrame) (i : Int) (x : Xmm) : Outcome CallFrame :=
  if h : 0 ≤ i ∧ i.toNat < 8 then .ok { f with vecs := f.vecs.set i.toNat x h.2 }
  else .crash .outOfRange

def setFloat (f : CallFrame) (i : Int) (s : Single) : Outcome CallFrame := f.setXmm i ⟨s.toWord, 0⟩

/-- Up to sixteen bytes; the rest of the register is zero. -/
def setVec (f : CallFrame) (i : Int) (bs : List UInt8) : Outcome CallFrame := f.setXmm i (.ofBytes bs)

/-- Four lanes of 32 bits. -/
def setVec32 (f : CallFrame) (i : Int) (lanes : List UInt32) : Outcome CallFrame :=
  f.setXmm i (.ofLanes .i32 (lanes.map UInt32.toUInt64))

def float (f : CallFrame) : Single := f.retVec.low

def vec (f : CallFrame) : List UInt8 := f.retVec.bytes

def vec32 (f : CallFrame) : List UInt64 := f.retVec.lanes .i32

end CallFrame

/-- Memory shared by the routines and buffers that are loaded into it. -/
structure Host where
  mem : Memory := {}
  /-- Where the next thing is loaded. -/
  next : UInt64 := 0x100000

namespace Host

/-- The stack of a call grows down from here. -/
def stackTop : UInt64 := 0x7F0000000000

/-- The address a call returns to. No code lies there. -/
def returnAddress : UInt64 := 0x1000

/-- Steps after which a call is given up. -/
def stepLimit : Nat := 1000000000

/-- Load bytes at a fresh address, a multiple of 4096. -/
def load (h : Host) (bs : List UInt8) : Host × UInt64 :=
  let taken := (UInt64.ofNat bs.length + 4096) &&& ~~~4095
  ({ mem := h.mem.write h.next bs, next := h.next + taken }, h.next)

/-- The machine at the entry of a routine. -/
def enter (h : Host) (entry : UInt64) (f : CallFrame) : Machine :=
  let m : Machine := { mem := h.mem, rip := entry }
  let m := ([.rdi, .rsi, .rdx, .rcx, .r8, .r9].zip f.ints.toList).foldl
    (fun (m : Machine) (r, w) => m.setReg r w) m
  let m := f.vecs.toList.zipIdx.foldl (fun (m : Machine) (x, i) => m.setXmm (Fin.ofNat 16 i) x) m
  (m.setReg .rsp stackTop).push returnAddress

/-- Call a routine. -/
def invoke (h : Host) (entry : UInt64) (f : CallFrame) : Outcome (Host × CallFrame) :=
  if entry = 0 then .refuse .nullEntry
  else match (h.enter entry f).runUntil returnAddress stepLimit with
    | .error _ => .fail (.reported "native code stopped before it returned")
    | .ok m => .ok ({ h with mem := m.mem },
        { f with retInt := m.reg .rax, retVec := m.xmm 0 })

/-- An argument of a call. A buffer is passed by the address it gets. -/
inductive Arg
  | word (w : UInt64)
  | float (s : Single)
  | vec (bs : List UInt8)
  | buffer (bs : List UInt8)

/-- What a call returned, by the type it was declared with. -/
inductive Returned
  | nothing
  | word (w : UInt64)
  | float (s : Single)
  | vec (bs : List UInt8)

/-- The result registers read at a type. -/
def returned (f : CallFrame) (t : Ty) : Returned :=
  if t.isVoid then .nothing
  else if t.isVector then .vec (f.vec.take t.size)
  else if t.isFloat then .float f.float
  else .word f.retInt

/-- Arguments being put into registers: the next free ones, and the buffers with their lengths. -/
structure Passing where
  host : Host
  frame : CallFrame := {}
  ints : Nat := 0
  vecs : Nat := 0
  buffers : List (UInt64 × Nat) := []

def Passing.pass (p : Passing) : Arg → Outcome Passing
  | .word w => do return { p with frame := ← p.frame.setInt p.ints w, ints := p.ints + 1 }
  | .float s => do return { p with frame := ← p.frame.setFloat p.vecs s, vecs := p.vecs + 1 }
  | .vec bs => do return { p with frame := ← p.frame.setVec p.vecs bs, vecs := p.vecs + 1 }
  | .buffer bs => do
    let (host, a) := p.host.load bs
    return { p with host, frame := ← p.frame.setInt p.ints a, ints := p.ints + 1,
                    buffers := p.buffers ++ [(a, bs.length)] }

/-- Call a routine that returns a type; also the buffers' contents afterwards. -/
def invokeWith (h : Host) (entry : UInt64) (ret : Ty) (args : List Arg) :
    Outcome (Host × Returned × List (List UInt8)) := do
  let p ← args.foldlM Passing.pass { host := h }
  let (h, f) ← p.host.invoke entry p.frame
  return (h, returned f ret, p.buffers.map fun (a, n) => h.mem.read a n)

/-- Call a routine on integers. -/
def call (h : Host) (entry : UInt64) (args : List UInt64) : Outcome (Host × UInt64) := do
  if 6 < args.length then Outcome.refuse (.callArity args.length)
  let f ← args.zipIdx.foldlM (fun (f : CallFrame) (w, i) => f.setInt i w) {}
  let (h, f) ← h.invoke entry f
  return (h, f.retInt)

end Host

end SsaJit.Native
