import SsaJit.Config.Basic

/-! Settings as a document. Text stands in single quotes where it can, since nothing is escaped there. -/

namespace SsaJit.Config

/-- Characters that text in single quotes cannot hold. -/
def needsEscape (c : Char) : Bool :=
  c == '\'' || c.toNat == 0x7F || (c.toNat < 0x20 && c != '\t')

/-- A character as it is written in double quotes. -/
def escaped (c : Char) : String :=
  match c with
  | '\\' => "\\\\"
  | '"' => "\\\""
  | '\x08' => "\\b"
  | '\x0c' => "\\f"
  | '\n' => "\\n"
  | '\r' => "\\r"
  | '\t' => "\\t"
  | c =>
    if c.toNat < 0x20 || c.toNat == 0x7F then "\\u00" ++ upperHexByte c.toNat.toUInt8
    else c.toString

def writeText (s : String) : String :=
  if s.toList.any needsEscape then "\"" ++ String.join (s.toList.map escaped) ++ "\""
  else "'" ++ s ++ "'"

def writeTexts (xs : List String) : String := "[" ++ joinWith ", " (xs.map writeText) ++ "]"

def writeBool (b : Bool) : String := if b then "true" else "false"

/-- The comment that a written document begins with. -/
def heading : List String := ["# reactor 运行配置", "# 可以用环境变量 REACTOR_CONFIG 指定其他路径", ""]

/-- The settings as a document. -/
def toText (c : Config) : String :=
  String.join ((heading ++
    ["debug = " ++ writeBool c.debug,
     "optimize = " ++ writeBool c.optimize,
     "passes = " ++ writeTexts c.passes,
     "cache_capacity = " ++ decimal c.cacheCapacity,
     "native_stack_size = " ++ decimal c.nativeStackSize,
     "",
     "[log]",
     "level = " ++ writeText c.logLevel,
     "",
     "[dump]",
     "ir = " ++ writeBool c.dumpIr,
     "llvm = " ++ writeBool c.dumpLlvm,
     "asm = " ++ writeBool c.dumpAsm]).map (· ++ "\n"))

end SsaJit.Config
