/-!
# Operations

The real opcodes are the instructions that a code object can hold. Pseudo operations exist only
before assembly: jumps without a direction, the marks that open and close a handler, and the load
of a cell. An instruction of the control-flow graph has an operation of either kind.
-/

namespace Bytecode

inductive Opcode where
  | popTop
  /-- Pushes the mark that a call leaves room for. -/
  | pushNull
  /-- Does nothing, and keeps a source line alive. -/
  | nop
  | unaryPositive
  | unaryNegative
  | unaryNot
  | unaryInvert
  | binarySubscr
  /-- `a[b:c]` -/
  | binarySlice
  /-- `a[b:c] = v` -/
  | storeSlice
  | getLen
  | matchMapping
  | matchSequence
  /-- Pushes the values under a tuple of keys, or nothing. -/
  | matchKeys
  /-- Saves the current exception and makes the top current. -/
  | pushExcInfo
  /-- Tests the exception below the top against the type at the top. -/
  | checkExcMatch
  /-- Calls the exit method with the live exception. -/
  | withExceptStart
  | getAiter
  | getAnext
  | beforeAsyncWith
  | beforeWith
  | endAsyncFor
  /-- Handles an exception thrown into a delegated generator. -/
  | cleanupThrow
  /-- Drops the receiver below the result of a send. -/
  | endSend
  | storeSubscr
  | deleteSubscr
  | getIter
  | getYieldFromIter
  | loadBuildClass
  | loadAssertionError
  /-- Makes a generator of the running frame. -/
  | returnGenerator
  | returnValue
  | setupAnnotations
  | loadLocals
  | popExcept
  | storeName
  | deleteName
  /-- Unpacks the top into as many values as the operand says. -/
  | unpackSequence
  /-- Advances the iterator at the top, and jumps forward when it is exhausted. -/
  | forIter
  /-- Unpacks around a starred target; the low byte counts what stands before it. -/
  | unpackEx
  | storeAttr
  | deleteAttr
  | storeGlobal
  | deleteGlobal
  /-- Exchanges the top with the item the operand counts from the top, starting at one. -/
  | swap
  | loadConst
  | loadName
  | buildTuple
  | buildList
  | buildSet
  | buildMap
  /-- The low bit of the operand asks for a method. -/
  | loadAttr
  | compareOp
  | importName
  | importFrom
  | jumpForward
  /-- Jumps and keeps the top if it is false, and pops it otherwise. -/
  | jumpIfFalseOrPop
  /-- Jumps and keeps the top if it is true, and pops it otherwise. -/
  | jumpIfTrueOrPop
  | popJumpForwardIfFalse
  | popJumpForwardIfTrue
  /-- The low bit of the operand also pushes the mark of a call. -/
  | loadGlobal
  | isOp
  | containsOp
  /-- Raises the top again; a nonzero operand restores the position too. -/
  | reraise
  /-- Pushes a copy of the item the operand counts from the top, starting at one. -/
  | copy
  | returnConst
  | binaryOp
  /-- Sends a value into an iterator, and jumps forward when it returns. -/
  | send
  /-- Pushes a local that is known to be bound. -/
  | loadFast
  | storeFast
  | deleteFast
  /-- Pushes a local, and raises if it is unbound. -/
  | loadFastCheck
  | popJumpForwardIfNotNone
  | popJumpForwardIfNone
  | raiseVarargs
  | getAwaitable
  /-- Makes a function of a code object and the extras that the operand flags. -/
  | makeFunction
  | buildSlice
  | jumpBackwardNoInterrupt
  | makeCell
  | loadDeref
  | storeDeref
  | deleteDeref
  | jumpBackward
  | callFunctionEx
  /-- Supplies the high bits of the next operand. -/
  | extendedArg
  | listAppend
  | setAdd
  | mapAdd
  /-- Loads a free variable from a class body, the locals first. -/
  | loadClassderef
  /-- Copies the cells of the closure into the frame. -/
  | copyFreeVars
  | yieldValue
  | resume
  | matchClass
  | formatValue
  /-- Builds a dictionary of values and a constant tuple of keys. -/
  | buildConstKeyMap
  | buildString
  | listExtend
  | setUpdate
  | dictMerge
  | dictUpdate
  | call
  /-- Records the keyword names of the next call. -/
  | kwNames
  | callIntrinsic1
  | callIntrinsic2
  | popJumpBackwardIfFalse
  | popJumpBackwardIfTrue
  | popJumpBackwardIfNone
  | popJumpBackwardIfNotNone
deriving DecidableEq, Repr, Inhabited

namespace Opcode

def all : List Opcode :=
  (List.range 109).map ofNat

def entry : Opcode → UInt8 × String
  | .popTop => (1, "POP_TOP")
  | .pushNull => (2, "PUSH_NULL")
  | .nop => (9, "NOP")
  | .unaryPositive => (10, "UNARY_POSITIVE")
  | .unaryNegative => (11, "UNARY_NEGATIVE")
  | .unaryNot => (12, "UNARY_NOT")
  | .unaryInvert => (15, "UNARY_INVERT")
  | .binarySubscr => (25, "BINARY_SUBSCR")
  | .binarySlice => (26, "BINARY_SLICE")
  | .storeSlice => (27, "STORE_SLICE")
  | .getLen => (30, "GET_LEN")
  | .matchMapping => (31, "MATCH_MAPPING")
  | .matchSequence => (32, "MATCH_SEQUENCE")
  | .matchKeys => (33, "MATCH_KEYS")
  | .pushExcInfo => (35, "PUSH_EXC_INFO")
  | .checkExcMatch => (36, "CHECK_EXC_MATCH")
  | .withExceptStart => (49, "WITH_EXCEPT_START")
  | .getAiter => (50, "GET_AITER")
  | .getAnext => (51, "GET_ANEXT")
  | .beforeAsyncWith => (52, "BEFORE_ASYNC_WITH")
  | .beforeWith => (53, "BEFORE_WITH")
  | .endAsyncFor => (54, "END_ASYNC_FOR")
  | .cleanupThrow => (55, "CLEANUP_THROW")
  | .endSend => (56, "END_SEND")
  | .storeSubscr => (60, "STORE_SUBSCR")
  | .deleteSubscr => (61, "DELETE_SUBSCR")
  | .getIter => (68, "GET_ITER")
  | .getYieldFromIter => (69, "GET_YIELD_FROM_ITER")
  | .loadBuildClass => (71, "LOAD_BUILD_CLASS")
  | .loadAssertionError => (74, "LOAD_ASSERTION_ERROR")
  | .returnGenerator => (75, "RETURN_GENERATOR")
  | .returnValue => (83, "RETURN_VALUE")
  | .setupAnnotations => (85, "SETUP_ANNOTATIONS")
  | .loadLocals => (87, "LOAD_LOCALS")
  | .popExcept => (89, "POP_EXCEPT")
  | .storeName => (90, "STORE_NAME")
  | .deleteName => (91, "DELETE_NAME")
  | .unpackSequence => (92, "UNPACK_SEQUENCE")
  | .forIter => (93, "FOR_ITER")
  | .unpackEx => (94, "UNPACK_EX")
  | .storeAttr => (95, "STORE_ATTR")
  | .deleteAttr => (96, "DELETE_ATTR")
  | .storeGlobal => (97, "STORE_GLOBAL")
  | .deleteGlobal => (98, "DELETE_GLOBAL")
  | .swap => (99, "SWAP")
  | .loadConst => (100, "LOAD_CONST")
  | .loadName => (101, "LOAD_NAME")
  | .buildTuple => (102, "BUILD_TUPLE")
  | .buildList => (103, "BUILD_LIST")
  | .buildSet => (104, "BUILD_SET")
  | .buildMap => (105, "BUILD_MAP")
  | .loadAttr => (106, "LOAD_ATTR")
  | .compareOp => (107, "COMPARE_OP")
  | .importName => (108, "IMPORT_NAME")
  | .importFrom => (109, "IMPORT_FROM")
  | .jumpForward => (110, "JUMP_FORWARD")
  | .jumpIfFalseOrPop => (111, "JUMP_IF_FALSE_OR_POP")
  | .jumpIfTrueOrPop => (112, "JUMP_IF_TRUE_OR_POP")
  | .popJumpForwardIfFalse => (114, "POP_JUMP_FORWARD_IF_FALSE")
  | .popJumpForwardIfTrue => (115, "POP_JUMP_FORWARD_IF_TRUE")
  | .loadGlobal => (116, "LOAD_GLOBAL")
  | .isOp => (117, "IS_OP")
  | .containsOp => (118, "CONTAINS_OP")
  | .reraise => (119, "RERAISE")
  | .copy => (120, "COPY")
  | .returnConst => (121, "RETURN_CONST")
  | .binaryOp => (122, "BINARY_OP")
  | .send => (123, "SEND")
  | .loadFast => (124, "LOAD_FAST")
  | .storeFast => (125, "STORE_FAST")
  | .deleteFast => (126, "DELETE_FAST")
  | .loadFastCheck => (127, "LOAD_FAST_CHECK")
  | .popJumpForwardIfNotNone => (128, "POP_JUMP_FORWARD_IF_NOT_NONE")
  | .popJumpForwardIfNone => (129, "POP_JUMP_FORWARD_IF_NONE")
  | .raiseVarargs => (130, "RAISE_VARARGS")
  | .getAwaitable => (131, "GET_AWAITABLE")
  | .makeFunction => (132, "MAKE_FUNCTION")
  | .buildSlice => (133, "BUILD_SLICE")
  | .jumpBackwardNoInterrupt => (134, "JUMP_BACKWARD_NO_INTERRUPT")
  | .makeCell => (135, "MAKE_CELL")
  | .loadDeref => (137, "LOAD_DEREF")
  | .storeDeref => (138, "STORE_DEREF")
  | .deleteDeref => (139, "DELETE_DEREF")
  | .jumpBackward => (140, "JUMP_BACKWARD")
  | .callFunctionEx => (142, "CALL_FUNCTION_EX")
  | .extendedArg => (144, "EXTENDED_ARG")
  | .listAppend => (145, "LIST_APPEND")
  | .setAdd => (146, "SET_ADD")
  | .mapAdd => (147, "MAP_ADD")
  | .loadClassderef => (148, "LOAD_CLASSDEREF")
  | .copyFreeVars => (149, "COPY_FREE_VARS")
  | .yieldValue => (150, "YIELD_VALUE")
  | .resume => (151, "RESUME")
  | .matchClass => (152, "MATCH_CLASS")
  | .formatValue => (155, "FORMAT_VALUE")
  | .buildConstKeyMap => (156, "BUILD_CONST_KEY_MAP")
  | .buildString => (157, "BUILD_STRING")
  | .listExtend => (162, "LIST_EXTEND")
  | .setUpdate => (163, "SET_UPDATE")
  | .dictMerge => (164, "DICT_MERGE")
  | .dictUpdate => (165, "DICT_UPDATE")
  | .call => (171, "CALL")
  | .kwNames => (172, "KW_NAMES")
  | .callIntrinsic1 => (173, "CALL_INTRINSIC_1")
  | .callIntrinsic2 => (174, "CALL_INTRINSIC_2")
  | .popJumpBackwardIfFalse => (175, "POP_JUMP_BACKWARD_IF_FALSE")
  | .popJumpBackwardIfTrue => (176, "POP_JUMP_BACKWARD_IF_TRUE")
  | .popJumpBackwardIfNone => (177, "POP_JUMP_BACKWARD_IF_NONE")
  | .popJumpBackwardIfNotNone => (178, "POP_JUMP_BACKWARD_IF_NOT_NONE")

def byte (op : Opcode) : UInt8 :=
  op.entry.1

def name (op : Opcode) : String :=
  op.entry.2

def ofByte? (b : UInt8) : Option Opcode :=
  all.find? (·.byte = b)

/-- Opcodes from this number on have an operand. -/
def firstWithOperand : UInt8 := 90

def hasOperand (op : Opcode) : Bool :=
  firstWithOperand ≤ op.byte

/-- Whether control never goes on to the next instruction, nor anywhere else in the scope. -/
def isScopeExit : Opcode → Bool
  | .returnValue | .returnConst | .raiseVarargs | .reraise => true
  | _ => false

def isUnconditionalJump : Opcode → Bool
  | .jumpForward | .jumpBackward | .jumpBackwardNoInterrupt => true
  | _ => false

def hasConstant : Opcode → Bool
  | .loadConst | .returnConst | .kwNames => true
  | _ => false

def hasName : Opcode → Bool
  | .storeName | .deleteName | .storeAttr | .deleteAttr | .storeGlobal | .deleteGlobal | .loadName
  | .loadAttr | .importName | .importFrom | .loadGlobal => true
  | _ => false

def hasSlot : Opcode → Bool
  | .loadFast | .storeFast | .deleteFast | .loadFastCheck | .makeCell | .loadDeref | .storeDeref
  | .deleteDeref | .loadClassderef => true
  | _ => false

end Opcode

/-- Where the target of a relative jump lies, seen from the end of the jump. -/
inductive Direction where
  | forward
  | backward
deriving DecidableEq, Repr

def Opcode.direction? : Opcode → Option Direction
  | .jumpForward | .jumpIfFalseOrPop | .jumpIfTrueOrPop | .popJumpForwardIfFalse
  | .popJumpForwardIfTrue | .popJumpForwardIfNone | .popJumpForwardIfNotNone | .forIter | .send =>
    some .forward
  | .jumpBackward | .jumpBackwardNoInterrupt | .popJumpBackwardIfFalse | .popJumpBackwardIfTrue
  | .popJumpBackwardIfNone | .popJumpBackwardIfNotNone => some .backward
  | _ => none

/-- The operations that assembly replaces. -/
inductive PseudoOp where
  /-- Jumps in the direction that assembly finds. -/
  | jump
  /-- Jumps without a check for interrupts. -/
  | jumpNoInterrupt
  | popJumpIfFalse
  | popJumpIfTrue
  | popJumpIfNone
  | popJumpIfNotNone
  | setupFinally
  /-- Opens a handler that also keeps the position of the fault. -/
  | setupCleanup
  /-- Opens the handler of a context manager. -/
  | setupWith
  | popBlock
  /-- Pushes a cell for the closure of a function. -/
  | loadClosure
deriving DecidableEq, Repr

namespace PseudoOp

def all : List PseudoOp :=
  (List.range 11).map ofNat

def name : PseudoOp → String
  | .jump => "JUMP"
  | .jumpNoInterrupt => "JUMP_NO_INTERRUPT"
  | .popJumpIfFalse => "POP_JUMP_IF_FALSE"
  | .popJumpIfTrue => "POP_JUMP_IF_TRUE"
  | .popJumpIfNone => "POP_JUMP_IF_NONE"
  | .popJumpIfNotNone => "POP_JUMP_IF_NOT_NONE"
  | .setupFinally => "SETUP_FINALLY"
  | .setupCleanup => "SETUP_CLEANUP"
  | .setupWith => "SETUP_WITH"
  | .popBlock => "POP_BLOCK"
  | .loadClosure => "LOAD_CLOSURE"

def isBlockPush : PseudoOp → Bool
  | .setupFinally | .setupCleanup | .setupWith => true
  | _ => false

def isUnconditionalJump : PseudoOp → Bool
  | .jump | .jumpNoInterrupt => true
  | _ => false

def isJump : PseudoOp → Bool
  | .jump | .jumpNoInterrupt | .popJumpIfFalse | .popJumpIfTrue | .popJumpIfNone
  | .popJumpIfNotNone => true
  | _ => false

end PseudoOp

inductive Operation where
  | real (op : Opcode)
  | pseudo (op : PseudoOp)
deriving DecidableEq, Repr

namespace Operation

instance : Coe Opcode Operation := ⟨real⟩

instance : Coe PseudoOp Operation := ⟨pseudo⟩

instance : Inhabited Operation := ⟨real .nop⟩

def all : List Operation :=
  Opcode.all.map real ++ PseudoOp.all.map pseudo

def name : Operation → String
  | real op => op.name
  | pseudo op => op.name

def ofName? (name : String) : Option Operation :=
  all.find? (·.name = name)

def pseudoBase : Nat := 256

/-- The number of an operation: a real one has its byte. -/
def code : Operation → Nat
  | real op => op.byte.toNat
  | pseudo op => pseudoBase + op.ctorIdx

def ofCode? (code : Nat) : Option Operation :=
  all.find? (·.code = code)

def isReal : Operation → Bool
  | real _ => true
  | pseudo _ => false

def hasOperand : Operation → Bool
  | real op => op.hasOperand
  | pseudo op => op = .loadClosure

def isJump : Operation → Bool
  | real op => op.direction?.isSome
  | pseudo op => op.isJump

def isBlockPush : Operation → Bool
  | real _ => false
  | pseudo op => op.isBlockPush

def hasTarget (op : Operation) : Bool :=
  op.isJump || op.isBlockPush

def isUnconditionalJump : Operation → Bool
  | real op => op.isUnconditionalJump
  | pseudo op => op.isUnconditionalJump

def isScopeExit : Operation → Bool
  | real op => op.isScopeExit
  | pseudo _ => false

def isTerminator (op : Operation) : Bool :=
  op.isJump || op.isScopeExit

def fallsThrough (op : Operation) : Bool :=
  !(op.isUnconditionalJump || op.isScopeExit)

end Operation

end Bytecode
