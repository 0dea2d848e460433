/-!
# Registers

The registers that assembly names: the sixteen general-purpose ones, in the order in which listings
go through them, and the instruction pointer.
-/

namespace LoweringIR

/-- The names of the registers. -/
def registerNames : List String :=
  ["rsp", "rbp", "rax", "rbx", "rcx", "rdx", "rsi", "rdi",
   "r8", "r9", "r10", "r11", "r12", "r13", "r14", "r15",
   "rip"]

end LoweringIR
