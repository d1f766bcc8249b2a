import Concolic.X86.Multiply
import Concolic.X86.Shift
import Concolic.X86.Stack
import Concolic.X86.Transfer

/-
  The meaning of every x86 operation.

  Correspondence (interface ↔ here), where more than the spelling differs:
    `binary_operands`, `inc_dec`, `logic` ↔ `readPair`, `count`, `bitwise`
    `add` and `sub`, `adc` and `sbb` ↔ `combine`, `combineWithCarry`
    `af`, `cf_add` and `cf_sub`, `of_add` and `of_sub` ↔ `writeAdjust`, `writeCarry`,
      `writeOverflow`
    `add_flags` and `sub_flags`, `logic_flags` ↔ `writeFlags`, `writeBitwiseFlags`
    `extend_move`, `extend_accumulator`, `sign_into_data` ↔ `extend`, `widen`, `spread`
    `adjust_stack`, `jcc`, `setcc`, `cmovcc` ↔ `moveStack`, `jumpIf`, `setIf`, `moveIf`
    `accumulator_for`, `write_wide`, `multiply_flags` ↔ `halves`, `writeProduct`,
      `writeProductFlags`
-/

namespace Concolic

open Step

namespace X86

/-- Executes an operation, up to the fault that it may raise. -/
def Op.execute : Op → Step (Option Fault)
  | add => complete X86.add
  | adc => complete X86.adc
  | sub => complete X86.sub
  | sbb => complete X86.sbb
  | cmp => complete X86.cmp
  | bitwise kind => complete (X86.bitwise kind)
  | test => complete X86.test
  | inc => complete X86.inc
  | dec => complete X86.dec
  | neg => complete X86.neg
  | not => complete X86.not
  | mov => complete X86.mov
  | extend signed => complete (X86.extend signed)
  | lea => complete X86.lea
  | xchg => complete X86.xchg
  | bswap => complete X86.bswap
  | push => complete X86.push
  | pop => complete X86.pop
  | call => completeBranch X86.call
  | ret => completeBranch X86.ret
  | jump => completeBranch X86.jump
  | jumpIf condition => completeBranch (X86.jumpIf condition)
  | setIf condition => complete (X86.setIf condition)
  | moveIf condition => complete (X86.moveIf condition)
  | shift kind => complete (X86.shift kind)
  | rotate left => complete (X86.rotate left)
  | mul => complete X86.mul
  | imul => complete X86.imul
  | divide signed => X86.divide signed
  | widen source target => complete (X86.widen source target)
  | spread source target => complete (X86.spread source target)
  | setFlag flag value => complete (X86.setFlag flag value)
  | complementCarry => complete X86.complementCarry
  | nop => complete (pure ())
  | breakpoint => return some .breakpoint
  | halt => return some .generalProtection

end X86

end Concolic
