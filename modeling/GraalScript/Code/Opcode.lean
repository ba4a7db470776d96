/-! Instruction set of the script machine: operations, their byte codes and their mnemonics. -/
namespace GraalScript

inductive Opcode where
  | setIndex | setIndexTrue | or | ifThen | and | call | ret | sleep | cmdCall | jmp | typeNumber
  | typeString | typeVar | typeArray | typeTrue | typeFalse | typeNull | pi | copyLastOp
  | swapLastOps | indexDec | convToFloat | convToString | memberAccess | convToObject | arrayEnd
  | arrayNew | setArray | inlineNew | makeVar | newObject | inlineConditional | assign
  | funcParamsEnd | inc | dec | add | sub | mul | div | mod | pow | not | unarySub | eq | neq | lt
  | gt | lte | gte | bwo | bwa | bwx | bwi | inRange | inObj | objIndex | objType | format | int
  | abs | random | sin | cos | arctan | exp | log | min | max | getAngle | getDir | vecX | vecY
  | objIndices | objLink | bwLeftShift | bwRightShift | char | objCompare | objTrim | objLength
  | objPos | join | objCharAt | objSubstr | objStarts | objEnds | objTokenize | translate
  | objPositions | objSize | array | arrayAssign | arrayMultidim | arrayMultidimAssign
  | objSubarray | objAddString | objDeleteString | objRemoveString | objReplaceString
  | objInsertString | objClear | arrayNewMultidim | withBegin | withEnd | forEach | thisObject
  | thisOther | player | playerOther | level | temp | params
  deriving DecidableEq, Repr

namespace Opcode

def code : Opcode → UInt8
  | setIndex => 1
  | setIndexTrue => 2
  | or => 3
  | ifThen => 4
  | and => 5
  | call => 6
  | ret => 7
  | sleep => 8
  | cmdCall => 9
  | jmp => 10
  | typeNumber => 20
  | typeString => 21
  | typeVar => 22
  | typeArray => 23
  | typeTrue => 24
  | typeFalse => 25
  | typeNull => 26
  | pi => 27
  | copyLastOp => 30
  | swapLastOps => 31
  | indexDec => 32
  | convToFloat => 33
  | convToString => 34
  | memberAccess => 35
  | convToObject => 36
  | arrayEnd => 37
  | arrayNew => 38
  | setArray => 39
  | inlineNew => 40
  | makeVar => 41
  | newObject => 42
  | inlineConditional => 44
  | assign => 50
  | funcParamsEnd => 51
  | inc => 52
  | dec => 53
  | add => 60
  | sub => 61
  | mul => 62
  | div => 63
  | mod => 64
  | pow => 65
  | not => 68
  | unarySub => 69
  | eq => 70
  | neq => 71
  | lt => 72
  | gt => 73
  | lte => 74
  | gte => 75
  | bwo => 76
  | bwa => 77
  | bwx => 78
  | bwi => 79
  | inRange => 80
  | inObj => 81
  | objIndex => 82
  | objType => 83
  | format => 84
  | int => 85
  | abs => 86
  | random => 87
  | sin => 88
  | cos => 89
  | arctan => 90
  | exp => 91
  | log => 92
  | min => 93
  | max => 94
  | getAngle => 95
  | getDir => 96
  | vecX => 97
  | vecY => 98
  | objIndices => 99
  | objLink => 100
  | bwLeftShift => 101
  | bwRightShift => 102
  | char => 103
  | objCompare => 104
  | objTrim => 110
  | objLength => 111
  | objPos => 112
  | join => 113
  | objCharAt => 114
  | objSubstr => 115
  | objStarts => 116
  | objEnds => 117
  | objTokenize => 118
  | translate => 119
  | objPositions => 120
  | objSize => 130
  | array => 131
  | arrayAssign => 132
  | arrayMultidim => 133
  | arrayMultidimAssign => 134
  | objSubarray => 135
  | objAddString => 136
  | objDeleteString => 137
  | objRemoveString => 138
  | objReplaceString => 139
  | objInsertString => 140
  | objClear => 141
  | arrayNewMultidim => 142
  | withBegin => 150
  | withEnd => 151
  | forEach => 163
  | thisObject => 180
  | thisOther => 181
  | player => 182
  | playerOther => 183
  | level => 184
  | temp => 189
  | params => 190

def mnemonic : Opcode → String
  | setIndex => "SET_INDEX"
  | setIndexTrue => "SET_INDEX_TRUE"
  | or => "OR"
  | ifThen => "IF"
  | and => "AND"
  | call => "CALL"
  | ret => "RET"
  | sleep => "SLEEP"
  | cmdCall => "CMD_CALL"
  | jmp => "JMP"
  | typeNumber => "TYPE_NUMBER"
  | typeString => "TYPE_STRING"
  | typeVar => "TYPE_VAR"
  | typeArray => "TYPE_ARRAY"
  | typeTrue => "TYPE_TRUE"
  | typeFalse => "TYPE_FALSE"
  | typeNull => "TYPE_NULL"
  | pi => "PI"
  | copyLastOp => "COPY_LAST_OP"
  | swapLastOps => "SWAP_LAST_OPS"
  | indexDec => "INDEX_DEC"
  | convToFloat => "CONV_TO_FLOAT"
  | convToString => "CONV_TO_STRING"
  | memberAccess => "MEMBER_ACCESS"
  | convToObject => "CONV_TO_OBJECT"
  | arrayEnd => "ARRAY_END"
  | arrayNew => "ARRAY_NEW"
  | setArray => "SETARRAY"
  | inlineNew => "INLINE_NEW"
  | makeVar => "MAKEVAR"
  | newObject => "NEW_OBJECT"
  | inlineConditional => "INLINE_CONDITIONAL"
  | assign => "ASSIGN"
  | funcParamsEnd => "FUNC_PARAMS_END"
  | inc => "INC"
  | dec => "DEC"
  | add => "ADD"
  | sub => "SUB"
  | mul => "MUL"
  | div => "DIV"
  | mod => "MOD"
  | pow => "POW"
  | not => "NOT"
  | unarySub => "UNARYSUB"
  | eq => "EQ"
  | neq => "NEQ"
  | lt => "LT"
  | gt => "GT"
  | lte => "LTE"
  | gte => "GTE"
  | bwo => "BWO"
  | bwa => "BWA"
  | bwx => "BWX"
  | bwi => "BWI"
  | inRange => "IN_RANGE"
  | inObj => "IN_OBJ"
  | objIndex => "OBJ_INDEX"
  | objType => "OBJ_TYPE"
  | format => "FORMAT"
  | int => "INT"
  | abs => "ABS"
  | random => "RANDOM"
  | sin => "SIN"
  | cos => "COS"
  | arctan => "ARCTAN"
  | exp => "EXP"
  | log => "LOG"
  | min => "MIN"
  | max => "MAX"
  | getAngle => "GETANGLE"
  | getDir => "GETDIR"
  | vecX => "VECX"
  | vecY => "VECY"
  | objIndices => "OBJ_INDICES"
  | objLink => "OBJ_LINK"
  | bwLeftShift => "BW_LEFTSHIFT"
  | bwRightShift => "BW_RIGHTSHIFT"
  | char => "CHAR"
  | objCompare => "OBJ_COMPARE"
  | objTrim => "OBJ_TRIM"
  | objLength => "OBJ_LENGTH"
  | objPos => "OBJ_POS"
  | join => "JOIN"
  | objCharAt => "OBJ_CHARAT"
  | objSubstr => "OBJ_SUBSTR"
  | objStarts => "OBJ_STARTS"
  | objEnds => "OBJ_ENDS"
  | objTokenize => "OBJ_TOKENIZE"
  | translate => "TRANSLATE"
  | objPositions => "OBJ_POSITIONS"
  | objSize => "OBJ_SIZE"
  | array => "ARRAY"
  | arrayAssign => "ARRAY_ASSIGN"
  | arrayMultidim => "ARRAY_MULTIDIM"
  | arrayMultidimAssign => "ARRAY_MULTIDIM_ASSIGN"
  | objSubarray => "OBJ_SUBARRAY"
  | objAddString => "OBJ_ADDSTRING"
  | objDeleteString => "OBJ_DELETESTRING"
  | objRemoveString => "OBJ_REMOVESTRING"
  | objReplaceString => "OBJ_REPLACESTRING"
  | objInsertString => "OBJ_INSERTSTRING"
  | objClear => "OBJ_CLEAR"
  | arrayNewMultidim => "ARRAY_NEW_MULTIDIM"
  | withBegin => "WITH"
  | withEnd => "WITHEND"
  | forEach => "FOREACH"
  | thisObject => "THIS"
  | thisOther => "THISO"
  | player => "PLAYER"
  | playerOther => "PLAYERO"
  | level => "LEVEL"
  | temp => "TEMP"
  | params => "PARAMS"

def all : List Opcode :=
  [setIndex, setIndexTrue, or, ifThen, and, call, ret, sleep, cmdCall, jmp, typeNumber, typeString,
   typeVar, typeArray, typeTrue, typeFalse, typeNull, pi, copyLastOp, swapLastOps, indexDec,
   convToFloat, convToString, memberAccess, convToObject, arrayEnd, arrayNew, setArray, inlineNew,
   makeVar, newObject, inlineConditional, assign, funcParamsEnd, inc, dec, add, sub, mul, div, mod,
   pow, not, unarySub, eq, neq, lt, gt, lte, gte, bwo, bwa, bwx, bwi, inRange, inObj, objIndex,
   objType, format, int, abs, random, sin, cos, arctan, exp, log, min, max, getAngle, getDir, vecX,
   vecY, objIndices, objLink, bwLeftShift, bwRightShift, char, objCompare, objTrim, objLength,
   objPos, join, objCharAt, objSubstr, objStarts, objEnds, objTokenize, translate, objPositions,
   objSize, array, arrayAssign, arrayMultidim, arrayMultidimAssign, objSubarray, objAddString,
   objDeleteString, objRemoveString, objReplaceString, objInsertString, objClear, arrayNewMultidim,
   withBegin, withEnd, forEach, thisObject, thisOther, player, playerOther, level, temp, params]

def ofCode? (byte : UInt8) : Option Opcode := all.find? fun op => op.code == byte

def ofMnemonic? (name : String) : Option Opcode := all.find? fun op => op.mnemonic == name

/-- Operations known to leave a truth value. -/
def leavesBool : Opcode → Bool
  | not | eq | neq | lt | gt | lte | gte | inRange | inObj => true
  | _ => false

def leavesObject : Opcode → Bool
  | thisObject | thisOther | player | playerOther | level | temp => true
  | _ => false

/-- Operations followed by the number of the operation to go on with. -/
def isJump : Opcode → Bool
  | setIndex | setIndexTrue | or | ifThen | and | withBegin | forEach => true
  | _ => false

def ofRoot? (name : String) : Option Opcode :=
  match name with
  | "this" => some thisObject
  | "thiso" => some thisOther
  | "player" => some player
  | "playero" => some playerOther
  | "level" => some level
  | "temp" => some temp
  | "params" => some params
  | "pi" => some pi
  | _ => none

theorem ofCode?_code (op : Opcode) : ofCode? op.code = some op := by
  cases op <;> decide +kernel

theorem ofCode?_eq_some_iff {byte : UInt8} {op : Opcode} :
    ofCode? byte = some op ↔ op.code = byte := by
  constructor
  · intro h
    simpa using List.find?_some h
  · rintro rfl
    exact ofCode?_code op

end Opcode

end GraalScript
