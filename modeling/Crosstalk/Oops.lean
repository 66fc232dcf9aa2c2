/-!
# Well known object pointers

The guaranteed pointers of `oops.h` that the modelled code refers to by number.
-/

namespace Crosstalk

abbrev nilPointer : Nat := 2
abbrev falsePointer : Nat := 4
abbrev truePointer : Nat := 6

abbrev schedulerAssociationPointer : Nat := 8

/-- The system dictionary. -/
abbrev smalltalkPointer : Nat := 25286

abbrev classSmallInteger : Nat := 12
abbrev classStringPointer : Nat := 14
abbrev classArrayPointer : Nat := 16
abbrev classMethodContextPointer : Nat := 22
abbrev classBlockContextPointer : Nat := 24
abbrev classPointPointer : Nat := 26
abbrev classLargePositiveIntegerPointer : Nat := 28
abbrev classMessagePointer : Nat := 32
abbrev classCompiledMethod : Nat := 34
abbrev classSemaphorePointer : Nat := 38

abbrev doesNotUnderstandSelector : Nat := 42
abbrev cannotReturnSelector : Nat := 44

end Crosstalk
