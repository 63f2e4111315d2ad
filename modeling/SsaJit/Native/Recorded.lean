import SsaJit.Native.Engine

/-! A body manager that hands out buffers of given sizes and records what it is asked for. -/

namespace SsaJit.Native

/-- The sizes left, the request that is to fail, and the requests made. -/
structure Recorded where
  sizes : List Nat
  failing : String := ""
  requests : List String := []

namespace Recorded

def record (s : Recorded) (t : String) : Recorded := { s with requests := s.requests ++ [t] }

def outcome (s : Recorded) (request : String) : Outcome Unit :=
  if s.failing = request then .fail (.reported (request ++ " failed")) else .ok ()

def bodies : BodyManager Recorded where
  start _ n s :=
    let s := s.record ("start " ++ decimal n)
    match s.sizes with
    | c :: rest => (.ok c, { s with sizes := rest })
    | [] => (.fail (.reported "no buffer"), s)
  tooSmall _ s := s.record "too small"
  write _ s := s
  finish _ a b s :=
    let s := s.record ("end " ++ decimal a ++ " " ++ decimal b)
    (s.outcome "end", s)
  makeExecutable s :=
    let s := s.record "executable"
    (s.outcome "executable", s)

end Recorded

end SsaJit.Native
