/-!
# Powers of numbers

A module that sees the algebra of monoids would take `n ^ k` for the power in the monoid of the
numbers. The instance chosen here makes it the power that the library computes with, in every module.
-/

attribute [instance (high), default_instance (high + 1)] instPowNat
