import LinkRepair.Repair.Expressions

/-!
# Repair

A repair runs the sweep over declarations below every root, and then the sweep over expressions
below every root.

* `repair`            both sweeps below a list of roots;
* `repairForest`      both sweeps over all files but the intrinsic one.
-/

namespace LinkRepair

/-- the first sweep, root by root -/
def repairDeclarations (cx : Context) (roots : List Root) (p : Pass) : Pass :=
  roots.foldl (Pass.sweepDeclarations cx) p

/-- the second sweep, root by root -/
def repairExpressions (cx : Context) (roots : List Root) (p : Pass) : Pass :=
  roots.foldl (Pass.sweepExpressions cx) p

def repair (cx : Context) (roots : List Root) (F : Forest) : Pass :=
  repairExpressions cx roots (repairDeclarations cx roots (Pass.start F))

def repairForest (cx : Context) (F : Forest) : Pass :=
  repair cx (F.userRoots cx.intrinsics) F

theorem repair_nil (cx : Context) (F : Forest) : repair cx [] F = Pass.start F := rfl

end LinkRepair
