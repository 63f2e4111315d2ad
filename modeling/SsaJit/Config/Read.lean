import SsaJit.Config.Basic
import SsaJit.Toml.Parser

/-! Settings from a document. Keys are matched in any case; keys that name no setting are passed over,
and so is everything in a section that names none. -/

namespace SsaJit.Config

open Toml

/-- Why there are no settings. -/
inductive ReadFault
  /-- There is no such file. -/
  | missing
  | malformed
  | flawed (f : Flaw)
  deriving DecidableEq, Repr

/-- Where the entries of a section go. -/
inductive Place
  | top | log | dump
  /-- A section that names no setting. -/
  | nowhere
  /-- A section in the place of a plain setting, which must be empty. -/
  | plain
  deriving DecidableEq, Repr

def bool? : Value → Option Bool
  | .bool b => some b
  | _ => none

def text? : Value → Option String
  | .text s => some s
  | _ => none

def int? : Value → Option Int
  | .integer ds => integer? ds
  | _ => none

def texts? : Value → Option (List String)
  | .array vs => vs.mapM text?
  | _ => none

/-- The settings that are no sections. -/
def plainKeys : List String :=
  ["debug", "optimize", "passes", "cache_capacity", "native_stack_size"]

def setPlain (c : Config) (key : String) (v : Value) : Option Config :=
  match key with
  | "debug" => do return { c with debug := ← bool? v }
  | "optimize" => do return { c with optimize := ← bool? v }
  | "passes" => do return { c with passes := ← texts? v }
  | "cache_capacity" => do return { c with cacheCapacity := ← int? v }
  | "native_stack_size" => do return { c with nativeStackSize := ← int? v }
  | _ => some c

def setLog (c : Config) (key : Path) (v : Value) : Option Config :=
  match key with
  | [] => some c
  | k :: rest =>
    if Text.lower k ≠ "level" then some c
    else if rest.isEmpty then do return { c with logLevel := ← text? v }
    else none

def setDump (c : Config) (key : Path) (v : Value) : Option Config :=
  match key with
  | [] => some c
  | k :: rest =>
    let k := Text.lower k
    if k ≠ "ir" ∧ k ≠ "llvm" ∧ k ≠ "asm" then some c
    else if !rest.isEmpty then none
    else do
      let b ← bool? v
      return if k = "ir" then { c with dumpIr := b }
        else if k = "llvm" then { c with dumpLlvm := b } else { c with dumpAsm := b }

/-- Set a section: by a dotted key into it, or as a whole by a table. -/
def setSection (set : Config → Path → Value → Option Config) (c : Config) (key : Path)
    (v : Value) : Option Config :=
  match key, v with
  | [], .table es => es.foldlM (fun c (k, v) => set c k v) c
  | [], _ => none
  | key, v => set c key v

/-- Set what a key of the top level names. -/
def setTop (c : Config) (key : Path) (v : Value) : Option Config :=
  match key with
  | [] => some c
  | k :: rest =>
    let k := Text.lower k
    if k = "log" then setSection setLog c rest v
    else if k = "dump" then setSection setDump c rest v
    else if plainKeys.contains k then (if rest.isEmpty then setPlain c k v else none)
    else some c

def setIn (p : Place) (c : Config) (key : Path) (v : Value) : Option Config :=
  match p with
  | .top => setTop c key v
  | .log => setLog c key v
  | .dump => setDump c key v
  | .nowhere => some c
  | .plain => none

/-- The settings inside a section. -/
def inner (place : Place) (names : List String) : Path → Option Place
  | [] => some place
  | k :: rest =>
    if names.contains (Text.lower k) then (if rest.isEmpty then some .plain else none)
    else some .nowhere

/-- The place that a section header names. A list of texts has no sections. -/
def placeOf : Path → Option Place
  | [] => some .top
  | k :: rest =>
    let k := Text.lower k
    if k = "log" then inner .log ["level"] rest
    else if k = "dump" then inner .dump ["ir", "llvm", "asm"] rest
    else if k = "passes" then none
    else if plainKeys.contains k then (if rest.isEmpty then some .plain else none)
    else some .nowhere

/-- A new element of a list of sections. Only the list of texts can take one, which is empty. -/
def addElement (c : Config) (key : Path) : Option (Config × Place) :=
  match key with
  | [k] =>
    if Text.lower k = "passes" then some ({ c with passes := c.passes ++ [""] }, .plain)
    else match placeOf key with
      | some .nowhere => some (c, .nowhere)
      | _ => none
  | _ =>
    match placeOf key with
    | some .nowhere => some (c, .nowhere)
    | _ => none

/-- Settings while a document is read. -/
structure Reading where
  config : Config := {}
  seen : Seen := {}
  place : Place := .top

def Reading.step (r : Reading) : Line → Option Reading
  | .entry k v =>
    if r.place = .nowhere then some r
    else do
      let seen ← r.seen.define k v
      return { r with config := ← setIn r.place r.config k v, seen }
  | .header k => do
    let seen ← r.seen.openSection k
    return { r with seen, place := ← placeOf k }
  | .element k => do
    let seen ← r.seen.openElement k
    let (config, place) ← addElement r.config k
    return { config, seen, place }

/-- Settings from a document; what it does not set keeps its usual value. -/
def ofText (s : String) : Except ReadFault Config :=
  match (Toml.parse s).bind fun lines => lines.foldlM Reading.step {} with
  | none => .error .malformed
  | some r =>
    match r.config.flaw? with
    | some f => .error (.flawed f)
    | none => .ok r.config

end SsaJit.Config
