/-! The instruction set, grouped by what follows the opcode. Each group is an
enumeration with one table row per operation: its opcode and its mnemonic. -/
namespace LiteralRecovery

/-- Operations without operands. -/
inductive PlainOp where
  | nop | aconstNull | iconstM1 | iconst0 | iconst1 | iconst2 | iconst3 | iconst4 | iconst5
  | lconst0 | lconst1 | fconst0 | fconst1 | fconst2 | dconst0 | dconst1 | iaload | laload
  | faload | daload | aaload | baload | caload | saload | iastore | lastore | fastore | dastore
  | aastore | bastore | castore | sastore | pop | pop2 | dup | dupX1 | dupX2 | dup2 | dup2X1
  | dup2X2 | swap | iadd | ladd | fadd | dadd | isub | lsub | fsub | dsub | imul | lmul | fmul
  | dmul | idiv | ldiv | fdiv | ddiv | irem | lrem | frem | drem | ineg | lneg | fneg | dneg
  | ishl | lshl | ishr | lshr | iushr | lushr | iand | land | ior | lor | ixor | lxor | i2l | i2f
  | i2d | l2i | l2f | l2d | f2i | f2l | f2d | d2i | d2l | d2f | i2b | i2c | i2s | lcmp | fcmpl
  | fcmpg | dcmpl | dcmpg | ireturn | lreturn | freturn | dreturn | areturn | returnVoid
  | arraylength | athrow | monitorenter | monitorexit | breakpoint | impdep1 | impdep2
deriving DecidableEq

namespace PlainOp

/-- Opcode and mnemonic. -/
def entry : PlainOp → UInt8 × String
  | .nop => (0, "nop")
  | .aconstNull => (1, "aconst_null")
  | .iconstM1 => (2, "iconst_m1")
  | .iconst0 => (3, "iconst_0")
  | .iconst1 => (4, "iconst_1")
  | .iconst2 => (5, "iconst_2")
  | .iconst3 => (6, "iconst_3")
  | .iconst4 => (7, "iconst_4")
  | .iconst5 => (8, "iconst_5")
  | .lconst0 => (9, "lconst_0")
  | .lconst1 => (10, "lconst_1")
  | .fconst0 => (11, "fconst_0")
  | .fconst1 => (12, "fconst_1")
  | .fconst2 => (13, "fconst_2")
  | .dconst0 => (14, "dconst_0")
  | .dconst1 => (15, "dconst_1")
  | .iaload => (46, "iaload")
  | .laload => (47, "laload")
  | .faload => (48, "faload")
  | .daload => (49, "daload")
  | .aaload => (50, "aaload")
  | .baload => (51, "baload")
  | .caload => (52, "caload")
  | .saload => (53, "saload")
  | .iastore => (79, "iastore")
  | .lastore => (80, "lastore")
  | .fastore => (81, "fastore")
  | .dastore => (82, "dastore")
  | .aastore => (83, "aastore")
  | .bastore => (84, "bastore")
  | .castore => (85, "castore")
  | .sastore => (86, "sastore")
  | .pop => (87, "pop")
  | .pop2 => (88, "pop2")
  | .dup => (89, "dup")
  | .dupX1 => (90, "dup_x1")
  | .dupX2 => (91, "dup_x2")
  | .dup2 => (92, "dup2")
  | .dup2X1 => (93, "dup2_x1")
  | .dup2X2 => (94, "dup2_x2")
  | .swap => (95, "swap")
  | .iadd => (96, "iadd")
  | .ladd => (97, "ladd")
  | .fadd => (98, "fadd")
  | .dadd => (99, "dadd")
  | .isub => (100, "isub")
  | .lsub => (101, "lsub")
  | .fsub => (102, "fsub")
  | .dsub => (103, "dsub")
  | .imul => (104, "imul")
  | .lmul => (105, "lmul")
  | .fmul => (106, "fmul")
  | .dmul => (107, "dmul")
  | .idiv => (108, "idiv")
  | .ldiv => (109, "ldiv")
  | .fdiv => (110, "fdiv")
  | .ddiv => (111, "ddiv")
  | .irem => (112, "irem")
  | .lrem => (113, "lrem")
  | .frem => (114, "frem")
  | .drem => (115, "drem")
  | .ineg => (116, "ineg")
  | .lneg => (117, "lneg")
  | .fneg => (118, "fneg")
  | .dneg => (119, "dneg")
  | .ishl => (120, "ishl")
  | .lshl => (121, "lshl")
  | .ishr => (122, "ishr")
  | .lshr => (123, "lshr")
  | .iushr => (124, "iushr")
  | .lushr => (125, "lushr")
  | .iand => (126, "iand")
  | .land => (127, "land")
  | .ior => (128, "ior")
  | .lor => (129, "lor")
  | .ixor => (130, "ixor")
  | .lxor => (131, "lxor")
  | .i2l => (133, "i2l")
  | .i2f => (134, "i2f")
  | .i2d => (135, "i2d")
  | .l2i => (136, "l2i")
  | .l2f => (137, "l2f")
  | .l2d => (138, "l2d")
  | .f2i => (139, "f2i")
  | .f2l => (140, "f2l")
  | .f2d => (141, "f2d")
  | .d2i => (142, "d2i")
  | .d2l => (143, "d2l")
  | .d2f => (144, "d2f")
  | .i2b => (145, "i2b")
  | .i2c => (146, "i2c")
  | .i2s => (147, "i2s")
  | .lcmp => (148, "lcmp")
  | .fcmpl => (149, "fcmpl")
  | .fcmpg => (150, "fcmpg")
  | .dcmpl => (151, "dcmpl")
  | .dcmpg => (152, "dcmpg")
  | .ireturn => (172, "ireturn")
  | .lreturn => (173, "lreturn")
  | .freturn => (174, "freturn")
  | .dreturn => (175, "dreturn")
  | .areturn => (176, "areturn")
  | .returnVoid => (177, "return")
  | .arraylength => (190, "arraylength")
  | .athrow => (191, "athrow")
  | .monitorenter => (194, "monitorenter")
  | .monitorexit => (195, "monitorexit")
  | .breakpoint => (202, "breakpoint")
  | .impdep1 => (254, "impdep1")
  | .impdep2 => (255, "impdep2")

def opcode (op : PlainOp) : UInt8 := op.entry.1

def mnemonic (op : PlainOp) : String := op.entry.2

/-- Every operation, in opcode order. -/
def all : List PlainOp :=
  [.nop, .aconstNull, .iconstM1, .iconst0, .iconst1, .iconst2, .iconst3, .iconst4, .iconst5,
   .lconst0, .lconst1, .fconst0, .fconst1, .fconst2, .dconst0, .dconst1, .iaload, .laload,
   .faload, .daload, .aaload, .baload, .caload, .saload, .iastore, .lastore, .fastore, .dastore,
   .aastore, .bastore, .castore, .sastore, .pop, .pop2, .dup, .dupX1, .dupX2, .dup2, .dup2X1,
   .dup2X2, .swap, .iadd, .ladd, .fadd, .dadd, .isub, .lsub, .fsub, .dsub, .imul, .lmul, .fmul,
   .dmul, .idiv, .ldiv, .fdiv, .ddiv, .irem, .lrem, .frem, .drem, .ineg, .lneg, .fneg, .dneg,
   .ishl, .lshl, .ishr, .lshr, .iushr, .lushr, .iand, .land, .ior, .lor, .ixor, .lxor, .i2l, .i2f,
   .i2d, .l2i, .l2f, .l2d, .f2i, .f2l, .f2d, .d2i, .d2l, .d2f, .i2b, .i2c, .i2s, .lcmp, .fcmpl,
   .fcmpg, .dcmpl, .dcmpg, .ireturn, .lreturn, .freturn, .dreturn, .areturn, .returnVoid,
   .arraylength, .athrow, .monitorenter, .monitorexit, .breakpoint, .impdep1, .impdep2]

def ofOpcode? (byte : UInt8) : Option PlainOp := all.find? (·.opcode == byte)

def ofMnemonic? (text : String) : Option PlainOp := all.find? (·.mnemonic == text)

end PlainOp

/-- Operations whose operand is a 16-bit constant pool index. -/
inductive PoolOp where
  | ldcW | ldc2W | getstatic | putstatic | getfield | putfield | invokevirtual | invokespecial
  | invokestatic | new | anewarray | checkcast | instanceof
deriving DecidableEq

namespace PoolOp

/-- Opcode and mnemonic. -/
def entry : PoolOp → UInt8 × String
  | .ldcW => (19, "ldc_w")
  | .ldc2W => (20, "ldc2_w")
  | .getstatic => (178, "getstatic")
  | .putstatic => (179, "putstatic")
  | .getfield => (180, "getfield")
  | .putfield => (181, "putfield")
  | .invokevirtual => (182, "invokevirtual")
  | .invokespecial => (183, "invokespecial")
  | .invokestatic => (184, "invokestatic")
  | .new => (187, "new")
  | .anewarray => (189, "anewarray")
  | .checkcast => (192, "checkcast")
  | .instanceof => (193, "instanceof")

def opcode (op : PoolOp) : UInt8 := op.entry.1

def mnemonic (op : PoolOp) : String := op.entry.2

/-- Every operation, in opcode order. -/
def all : List PoolOp :=
  [.ldcW, .ldc2W, .getstatic, .putstatic, .getfield, .putfield, .invokevirtual, .invokespecial,
   .invokestatic, .new, .anewarray, .checkcast, .instanceof]

def ofOpcode? (byte : UInt8) : Option PoolOp := all.find? (·.opcode == byte)

def ofMnemonic? (text : String) : Option PoolOp := all.find? (·.mnemonic == text)

end PoolOp

/-- Branches with a 16-bit distance. -/
inductive BranchOp where
  | ifeq | ifne | iflt | ifge | ifgt | ifle | ifIcmpeq | ifIcmpne | ifIcmplt | ifIcmpge
  | ifIcmpgt | ifIcmple | ifAcmpeq | ifAcmpne | goto | jsr | ifnull | ifnonnull
deriving DecidableEq

namespace BranchOp

/-- Opcode and mnemonic. -/
def entry : BranchOp → UInt8 × String
  | .ifeq => (153, "ifeq")
  | .ifne => (154, "ifne")
  | .iflt => (155, "iflt")
  | .ifge => (156, "ifge")
  | .ifgt => (157, "ifgt")
  | .ifle => (158, "ifle")
  | .ifIcmpeq => (159, "if_icmpeq")
  | .ifIcmpne => (160, "if_icmpne")
  | .ifIcmplt => (161, "if_icmplt")
  | .ifIcmpge => (162, "if_icmpge")
  | .ifIcmpgt => (163, "if_icmpgt")
  | .ifIcmple => (164, "if_icmple")
  | .ifAcmpeq => (165, "if_acmpeq")
  | .ifAcmpne => (166, "if_acmpne")
  | .goto => (167, "goto")
  | .jsr => (168, "jsr")
  | .ifnull => (198, "ifnull")
  | .ifnonnull => (199, "ifnonnull")

def opcode (op : BranchOp) : UInt8 := op.entry.1

def mnemonic (op : BranchOp) : String := op.entry.2

/-- Every operation, in opcode order. -/
def all : List BranchOp :=
  [.ifeq, .ifne, .iflt, .ifge, .ifgt, .ifle, .ifIcmpeq, .ifIcmpne, .ifIcmplt, .ifIcmpge,
   .ifIcmpgt, .ifIcmple, .ifAcmpeq, .ifAcmpne, .goto, .jsr, .ifnull, .ifnonnull]

def ofOpcode? (byte : UInt8) : Option BranchOp := all.find? (·.opcode == byte)

def ofMnemonic? (text : String) : Option BranchOp := all.find? (·.mnemonic == text)

end BranchOp

/-- Branches with a 32-bit distance. -/
inductive WideBranchOp where
  | gotoW | jsrW
deriving DecidableEq

namespace WideBranchOp

/-- Opcode and mnemonic. -/
def entry : WideBranchOp → UInt8 × String
  | .gotoW => (200, "goto_w")
  | .jsrW => (201, "jsr_w")

def opcode (op : WideBranchOp) : UInt8 := op.entry.1

def mnemonic (op : WideBranchOp) : String := op.entry.2

/-- Every operation, in opcode order. -/
def all : List WideBranchOp :=
  [.gotoW, .jsrW]

def ofOpcode? (byte : UInt8) : Option WideBranchOp := all.find? (·.opcode == byte)

def ofMnemonic? (text : String) : Option WideBranchOp := all.find? (·.mnemonic == text)

end WideBranchOp

/-- What a local variable instruction moves. -/
inductive LocalKind where
  | int | long | float | double | reference
deriving DecidableEq

namespace LocalKind

/-- Position in the opcode rows of the local variable instructions, and the
letter that begins their mnemonics. -/
def entry : LocalKind → UInt8 × String
  | .int => (0, "i")
  | .long => (1, "l")
  | .float => (2, "f")
  | .double => (3, "d")
  | .reference => (4, "a")

def row (kind : LocalKind) : UInt8 := kind.entry.1

def letter (kind : LocalKind) : String := kind.entry.2

def all : List LocalKind := [.int, .long, .float, .double, .reference]

def ofRow? (row : UInt8) : Option LocalKind := all.find? (·.row == row)

end LocalKind

/-- Element type of a primitive array. -/
inductive ArrayElement where
  | boolean | char | float | double | byte | short | int | long
deriving DecidableEq

namespace ArrayElement

/-- Type code and name. -/
def entry : ArrayElement → UInt8 × String
  | .boolean => (4, "Boolean")
  | .char => (5, "Char")
  | .float => (6, "Float")
  | .double => (7, "Double")
  | .byte => (8, "Byte")
  | .short => (9, "Short")
  | .int => (10, "Int")
  | .long => (11, "Long")

def code (element : ArrayElement) : UInt8 := element.entry.1

def name (element : ArrayElement) : String := element.entry.2

def all : List ArrayElement := [.boolean, .char, .float, .double, .byte, .short, .int, .long]

def ofCode? (byte : UInt8) : Option ArrayElement := all.find? (·.code == byte)

def ofName? (text : String) : Option ArrayElement := all.find? (·.name == text)

end ArrayElement

end LiteralRecovery
