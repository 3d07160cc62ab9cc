import CaLang.Types.Syntax

/-! # LLVM types

The types that `llvmtype_from_catype` builds. A struct becomes the identified struct type that
`g_llvmtype_map` holds for its signature, so **the signature is the identity of the struct type**.
-/

namespace CaLang.Types

/-- The LLVM types that are built; a struct is known by the signature it was created for. -/
inductive LLVMType
  | void
  | int (bits : Nat)
  | float
  | double
  | pointer (elem : LLVMType)
  | array (elem : LLVMType) (n : Nat)
  | struct (signature : List Char)
  deriving DecidableEq

/-- `llvmtype_from_token`. -/
def llvmtypeFromToken : Prim → LLVMType
  | .void => .void
  | .i8 | .u8 => .int 8
  | .i16 | .u16 => .int 16
  | .i32 | .u32 => .int 32
  | .i64 | .u64 => .int 64
  | .f32 => .float
  | .f64 => .double
  | .bool => .int 1

end CaLang.Types
