import Mathlib

/-!
# Numerals of index types

Ports, lanes and channels are numbered by finite types of a few fixed sizes.  A numeral of such a
type needs an instance that says that the type is not empty; with a name of its own it is the same
term wherever the numeral is written.
-/

namespace RidgeWalker.Numerals

instance neZeroTwo : NeZero 2 := ⟨two_ne_zero⟩

instance neZeroThree : NeZero 3 := ⟨three_ne_zero⟩

instance neZeroFour : NeZero 4 := ⟨four_ne_zero⟩

instance neZeroEight : NeZero 8 := ⟨by decide⟩

instance neZeroNine : NeZero 9 := ⟨by decide⟩

instance neZeroSixteen : NeZero 16 := ⟨by decide⟩

end RidgeWalker.Numerals
