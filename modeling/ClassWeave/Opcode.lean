/-!
# Opcodes

Values, mnemonics and the classes of instructions that the rest of the library asks about. A value
outside the instruction set has the mnemonic `???` and belongs to no class.
-/

set_option autoImplicit false

namespace ClassWeave

abbrev Opcode := UInt8

namespace Opcode

abbrev nop : Opcode := 0x00
abbrev iconst0 : Opcode := 0x03
abbrev lconst0 : Opcode := 0x09
abbrev lconst1 : Opcode := 0x0a
abbrev bipush : Opcode := 0x10
abbrev sipush : Opcode := 0x11
abbrev ldc : Opcode := 0x12
abbrev ldcW : Opcode := 0x13
abbrev ldc2W : Opcode := 0x14
abbrev iload : Opcode := 0x15
abbrev lload : Opcode := 0x16
abbrev fload : Opcode := 0x17
abbrev dload : Opcode := 0x18
abbrev aload : Opcode := 0x19
abbrev iload0 : Opcode := 0x1a
abbrev aload3 : Opcode := 0x2d
abbrev istore : Opcode := 0x36
abbrev lstore : Opcode := 0x37
abbrev fstore : Opcode := 0x38
abbrev dstore : Opcode := 0x39
abbrev astore : Opcode := 0x3a
abbrev istore0 : Opcode := 0x3b
abbrev astore3 : Opcode := 0x4e
abbrev pop : Opcode := 0x57
abbrev pop2 : Opcode := 0x58
abbrev imul : Opcode := 0x68
abbrev lmul : Opcode := 0x69
abbrev iinc : Opcode := 0x84
abbrev ifeq : Opcode := 0x99
abbrev ifle : Opcode := 0x9e
abbrev ificmpeq : Opcode := 0x9f
abbrev ifacmpne : Opcode := 0xa6
abbrev goto : Opcode := 0xa7
abbrev jsr : Opcode := 0xa8
abbrev ret : Opcode := 0xa9
abbrev tableswitch : Opcode := 0xaa
abbrev lookupswitch : Opcode := 0xab
abbrev ireturn : Opcode := 0xac
abbrev lreturn : Opcode := 0xad
abbrev freturn : Opcode := 0xae
abbrev dreturn : Opcode := 0xaf
abbrev areturn : Opcode := 0xb0
abbrev returnVoid : Opcode := 0xb1
abbrev getstatic : Opcode := 0xb2
abbrev putstatic : Opcode := 0xb3
abbrev getfield : Opcode := 0xb4
abbrev putfield : Opcode := 0xb5
abbrev invokevirtual : Opcode := 0xb6
abbrev invokespecial : Opcode := 0xb7
abbrev invokestatic : Opcode := 0xb8
abbrev invokeinterface : Opcode := 0xb9
abbrev invokedynamic : Opcode := 0xba
abbrev new : Opcode := 0xbb
abbrev newarray : Opcode := 0xbc
abbrev anewarray : Opcode := 0xbd
abbrev athrow : Opcode := 0xbf
abbrev checkcast : Opcode := 0xc0
abbrev instanceof : Opcode := 0xc1
abbrev wide : Opcode := 0xc4
abbrev multianewarray : Opcode := 0xc5
abbrev ifnull : Opcode := 0xc6
abbrev ifnonnull : Opcode := 0xc7
abbrev gotoW : Opcode := 0xc8
abbrev jsrW : Opcode := 0xc9

def between (first last op : Opcode) : Bool := first ≤ op && op ≤ last

def isReturn (op : Opcode) : Bool := between ireturn returnVoid op

def neverPasses (op : Opcode) : Bool :=
  isReturn op || [athrow, goto, gotoW, ret, tableswitch, lookupswitch].contains op

def isUnaryBranch (op : Opcode) : Bool := between ifeq ifle op || op == ifnull || op == ifnonnull

def comparesTwo (op : Opcode) : Bool := between ificmpeq ifacmpne op

/-- The conditional branch that is taken exactly when `op` is not: branches come in such pairs, an
odd value with the even one after it. -/
def opposite? (op : Opcode) : Option Opcode :=
  if between ifeq ifacmpne op then some (((op - ifeq) ^^^ 1) + ifeq)
  else if op == ifnull || op == ifnonnull then some (op ^^^ 1)
  else none

def isWideJump (op : Opcode) : Bool := op == gotoW || op == jsrW

def isVariable (op : Opcode) : Bool :=
  between iload aload op || between istore astore op || op == ret

def isSimple (op : Opcode) : Bool :=
  between 0x00 0x0f op || between 0x2e 0x35 op || between 0x4f 0x83 op || between 0x85 0x98 op ||
    isReturn op || [0xbe, athrow, 0xc2, 0xc3].contains op

def mnemonics : Array String := #[
  "nop", "aconst_null", "iconst_m1", "iconst_0", "iconst_1", "iconst_2", "iconst_3",
  "iconst_4", "iconst_5", "lconst_0", "lconst_1", "fconst_0", "fconst_1", "fconst_2",
  "dconst_0", "dconst_1", "bipush", "sipush", "ldc", "ldc_w", "ldc2_w", "iload", "lload",
  "fload", "dload", "aload", "iload_0", "iload_1", "iload_2", "iload_3", "lload_0",
  "lload_1", "lload_2", "lload_3", "fload_0", "fload_1", "fload_2", "fload_3", "dload_0",
  "dload_1", "dload_2", "dload_3", "aload_0", "aload_1", "aload_2", "aload_3", "iaload",
  "laload", "faload", "daload", "aaload", "baload", "caload", "saload", "istore", "lstore",
  "fstore", "dstore", "astore", "istore_0", "istore_1", "istore_2", "istore_3", "lstore_0",
  "lstore_1", "lstore_2", "lstore_3", "fstore_0", "fstore_1", "fstore_2", "fstore_3",
  "dstore_0", "dstore_1", "dstore_2", "dstore_3", "astore_0", "astore_1", "astore_2",
  "astore_3", "iastore", "lastore", "fastore", "dastore", "aastore", "bastore", "castore",
  "sastore", "pop", "pop2", "dup", "dup_x1", "dup_x2", "dup2", "dup2_x1", "dup2_x2", "swap",
  "iadd", "ladd", "fadd", "dadd", "isub", "lsub", "fsub", "dsub", "imul", "lmul", "fmul",
  "dmul", "idiv", "ldiv", "fdiv", "ddiv", "irem", "lrem", "frem", "drem", "ineg", "lneg",
  "fneg", "dneg", "ishl", "lshl", "ishr", "lshr", "iushr", "lushr", "iand", "land", "ior",
  "lor", "ixor", "lxor", "iinc", "i2l", "i2f", "i2d", "l2i", "l2f", "l2d", "f2i", "f2l",
  "f2d", "d2i", "d2l", "d2f", "i2b", "i2c", "i2s", "lcmp", "fcmpl", "fcmpg", "dcmpl",
  "dcmpg", "ifeq", "ifne", "iflt", "ifge", "ifgt", "ifle", "if_icmpeq", "if_icmpne",
  "if_icmplt", "if_icmpge", "if_icmpgt", "if_icmple", "if_acmpeq", "if_acmpne", "goto",
  "jsr", "ret", "tableswitch", "lookupswitch", "ireturn", "lreturn", "freturn", "dreturn",
  "areturn", "return", "getstatic", "putstatic", "getfield", "putfield", "invokevirtual",
  "invokespecial", "invokestatic", "invokeinterface", "invokedynamic", "new", "newarray",
  "anewarray", "arraylength", "athrow", "checkcast", "instanceof", "monitorenter",
  "monitorexit", "wide", "multianewarray", "ifnull", "ifnonnull", "goto_w", "jsr_w"]

def mnemonic (op : Opcode) : String := mnemonics[op.toNat]?.getD "???"

end Opcode

end ClassWeave
