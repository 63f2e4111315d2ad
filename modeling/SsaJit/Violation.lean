import SsaJit.Kind

/-! What a malformed function can be reproached with. Each constructor names one rule of the
intermediate form; `Violation.text` words it. -/

namespace SsaJit

/-- The label of a block. -/
def blockLabel (b : Nat) : String := "b" ++ decimal b

/-- The label of a value. -/
def valueLabel (v : Nat) : String := "v" ++ decimal v

/-- Type rules of the operations other than casts. -/
inductive TypeRule
  | operandTypes | floatOperation | integerOperation | floatUnary
  | compareOperands | compareResult | predicateClass | integerCompare | floatCompare
  | allocaBlock | allocaShape | load | store | address
  | extract | insert | shuffleOperands | shuffleResult | shuffleSelector
  | selectArms | selectCondition | callTarget | copy | constantLanes | globalAddress
  deriving DecidableEq, Repr

def TypeRule.text : TypeRule → String
  | .operandTypes => "operand types differ from result"
  | .floatOperation => "float op on non-float"
  | .integerOperation => "integer op on non-integer"
  | .floatUnary => "float unary type"
  | .compareOperands => "compare operand types differ"
  | .compareResult => "compare result must be the mask type"
  | .predicateClass => "predicate class"
  | .integerCompare => "icmp on non-integer"
  | .floatCompare => "fcmp on non-float"
  | .allocaBlock => "alloca outside entry block"
  | .allocaShape => "alloca must produce a pointer to a positive size"
  | .load => "load from non-pointer"
  | .store => "store shape"
  | .address => "gep shape"
  | .extract => "extractelement shape"
  | .insert => "insertelement shape"
  | .shuffleOperands => "shufflevector operands"
  | .shuffleResult => "shufflevector result"
  | .shuffleSelector => "shufflevector selector out of range"
  | .selectArms => "select arm types"
  | .selectCondition => "select condition"
  | .callTarget => "call target must be a pointer"
  | .copy => "copy type"
  | .constantLanes => "vector constant lanes"
  | .globalAddress => "global address"

/-- Type rules of the casts. -/
inductive CastRule
  | bitcastSize | laneCount | trunc | extension | floatToInt | intToFloat | ptrToInt | intToPtr
  deriving DecidableEq, Repr

def CastRule.text : CastRule → String
  | .bitcastSize => "bitcast size"
  | .laneCount => "lane count"
  | .trunc => "trunc"
  | .extension => "extension"
  | .floatToInt => "float to int"
  | .intToFloat => "int to float"
  | .ptrToInt => "ptrtoint"
  | .intToPtr => "inttoptr"

/-- One broken rule. Blocks and values are given by number, instructions by their text. -/
inductive Violation
  | foreignBlock (b : Nat)
  | edgeWithoutPred (b succ : Nat)
  | predWithoutEdge (b pred : Nat)
  | unterminated (b : Nat)
  | jumpArity (b : Nat)
  | branchArity (b : Nat)
  | branchCondition (b : Nat)
  | valueFromVoid (b : Nat)
  | returnType (b : Nat) (want : Ty)
  | wrongBlock (b v : Nat)
  | latePhi (b v : Nat)
  | phiArity (b v args preds : Nat)
  | phiArgument (b v : Nat) (got : Ty)
  | missingOperand (b : Nat)
  | undefinedOperand (b v : Nat)
  | usedBeforeDefinition (b v : Nat)
  | notDominating (b v : Nat)
  | operandCount (instr : String) (want : Nat)
  | type (instr : String) (rule : TypeRule)
  | cast (instr : String) (rule : CastRule) (source target : Ty)
  deriving DecidableEq, Repr

def Violation.text : Violation → String
  | .foreignBlock b => blockLabel b ++ " belongs to another function"
  | .edgeWithoutPred b s => blockLabel b ++ " -> " ++ blockLabel s ++ " missing from preds"
  | .predWithoutEdge b p => blockLabel b ++ " lists pred " ++ blockLabel p ++ " without edge"
  | .unterminated b => blockLabel b ++ " has no terminator"
  | .jumpArity b => blockLabel b ++ ": br needs 1 successor"
  | .branchArity b => blockLabel b ++ ": condbr needs 2 successors"
  | .branchCondition b => blockLabel b ++ ": condbr condition must be i1"
  | .valueFromVoid b => blockLabel b ++ ": ret value in void function"
  | .returnType b t => blockLabel b ++ ": ret type mismatch, want " ++ t.name
  | .wrongBlock b v => blockLabel b ++ ": " ++ valueLabel v ++ " has wrong block"
  | .latePhi b v => blockLabel b ++ ": phi " ++ valueLabel v ++ " after non-phi"
  | .phiArity b v n m => blockLabel b ++ ": phi " ++ valueLabel v ++ " has " ++ decimal n ++
      " args for " ++ decimal m ++ " preds"
  | .phiArgument b v t => blockLabel b ++ ": phi " ++ valueLabel v ++ " arg type " ++ t.name
  | .missingOperand b => blockLabel b ++ ": nil operand"
  | .undefinedOperand b v =>
      blockLabel b ++ ": operand " ++ valueLabel v ++ " is not defined in function"
  | .usedBeforeDefinition b v =>
      blockLabel b ++ ": " ++ valueLabel v ++ " used before definition"
  | .notDominating b v =>
      blockLabel b ++ ": definition of " ++ valueLabel v ++ " does not dominate use"
  | .operandCount i n => i ++ ": want " ++ decimal n ++ " operands"
  | .type i r => i ++ ": " ++ r.text
  | .cast i r s t => i ++ ": " ++ r.text ++ " from " ++ s.name ++ " to " ++ t.name

/-- The violation as reported for a function of the given name. -/
def Violation.message (function : String) (v : Violation) : String :=
  "invalid IR: " ++ function ++ ": " ++ v.text

end SsaJit
