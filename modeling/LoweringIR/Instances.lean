/-!
# Instances that come first

Sums, powers and the order of lists are those of the core library. Algebra brings instances of its
own for the same operations, equal to these but not the same terms. What a definition says shall not
depend on whether algebra is imported beside it, so in this library the instances of core are tried
first.
-/

namespace LoweringIR

attribute [scoped instance (high)] Zero.ofOfNat0 instPowNat List.instLE

end LoweringIR
