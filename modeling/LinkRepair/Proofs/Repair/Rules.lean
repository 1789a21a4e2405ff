import LinkRepair.Proofs.Forest.Lineages
import LinkRepair.Proofs.Repair.Implementations
import LinkRepair.Proofs.Repair.Sweep

/-!
# A repair without bounds

Every loop of a repair carries a bound on its length, computed from the sizes of the stores.  Here the
repair is given by rules that carry none, so that a loop that would go on for ever has no derivation.

* `Forest.Closes`         the closure of what some functions override is found;
* `Forest.Locates`        the parent links of a declaration lead to an end;
* `Pass.Implements`       a class, after the classes above it, is given the members that it lacks;
* `Pass.Enters`           a visit of the first sweep;
* `Repairs cx roots F p`  a repair of `F` from the roots comes to its end, in `p`;
* `Repairs.unique`        the rules leave no choice.

The search for the classes above a class has its rules in `Forest.Searches`, and questions about
classifiers have theirs in `Explores`.
-/

namespace LinkRepair

namespace Forest

/-- the walk along overridden symbols ends -/
def Closes (F : Forest) (functions : List DeclarationId) : Prop :=
  Walks (fun met s r => r = F.meetOverridden met s) [] (functions.flatMap F.overriddenBy)
    (F.overrideClosure functions)

/-- the ascent along parent links ends -/
def Locates (F : Forest) (d : DeclarationId) : Prop := ∃ l f, F.Ascends d l f

end Forest

namespace Pass

section
variable (cx : Context)

/-! ## what a visit does -/

/-- a problem is raised in a declaration, which is located for the report -/
def RaisesIn (p : Pass) (problem : Problem) (d : DeclarationId) (q : Pass) : Prop :=
  p.forest.Locates d ∧ q = p.raiseIn cx problem d

/-- the class `d` is given a copy of `m` -/
def AddsMember (d : DeclarationId) (p : Pass) (m : DeclarationId) (q : Pass) : Prop :=
  let made := p.forest.copyMember d m
  RaisesIn cx { p with forest := made.2 } (.unimplementedMember made.1) made.1 q

inductive Implements : Pass → DeclarationId → Pass → Prop
  | seen {p : Pass} {d : DeclarationId} (h : d ∈ p.examined) : Implements p d p
  | abstract {p : Pass} {d : DeclarationId} (h : d ∉ p.examined) (hc : ¬ p.forest.isConcrete d) :
      Implements p d { p with examined := d :: p.examined }
  | concrete {p q r : Pass} {d : DeclarationId} {above : List DeclarationId} (h : d ∉ p.examined)
      (hc : p.forest.isConcrete d) (habove : p.forest.Searches d [d] [] above)
      (hq : InOrder Implements { p with examined := d :: p.examined } above q)
      (hclosed : q.forest.Closes ((d :: above).flatMap q.forest.memberFunctions))
      (hr : InOrder (AddsMember cx d) q (q.forest.unimplemented d above) r) : Implements p d r

/-- the repair of a class before it is given members -/
def MendsClass (p : Pass) (d : DeclarationId) (symbol : SymbolId) (info : ClassInfo) (q : Pass) : Prop :=
  let bound := p.fixTypeParameters cx info.typeParameters
  let verdict := bound.2.ask [symbol]
  match classProblem d symbol verdict.1 bound.1 with
  | none => q = verdict.2
  | some problem =>
    let initializer := verdict.2.initializerOf d
    ∃ r, RaisesIn cx initializer.2 problem initializer.1 r ∧ q = r.dropBrokenSuperTypes d

/-- the repair of a function, and whether it was given a new body -/
def MendsFunction (p : Pass) (d : DeclarationId) (x : Declaration) (r : Bool × Pass) : Prop :=
  let fixed := (p.filterOverridden d).fixSignature cx d
  match functionProblem d x fixed.1 with
  | none => r = (false, fixed.2)
  | some problem => r.1 = true ∧ RaisesIn cx fixed.2 problem d r.2

/-- the visit of a node, and what is visited below it.  Only classes and functions are more than
questions and edits. -/
inductive Enters : Pass → Node → Pass × List Node → Prop
  | ofClass {p q r : Pass} {d : DeclarationId} {x : Declaration} {info : ClassInfo}
      (hx : p.forest.declaration? d = some x) (hc : x.content = .ofClass info)
      (hq : MendsClass cx p d x.symbol info q) (hr : Implements cx q d r) :
      Enters p (.declaration d) (r.below (.declaration d) false)
  | ofFunction {p : Pass} {r : Bool × Pass} {d : DeclarationId} {x : Declaration} {f : FunctionInfo}
      (hx : p.forest.declaration? d = some x) (hf : x.content = .ofFunction f)
      (hr : MendsFunction cx p d x r) : Enters p (.declaration d) (r.2.below (.declaration d) r.1)
  | plain {p : Pass} {n : Node}
      (h : ∀ d x, n = .declaration d → p.forest.declaration? d = some x →
        (∀ info, x.content ≠ .ofClass info) ∧ ∀ f, x.content ≠ .ofFunction f) :
      Enters p n (enterDeclaration cx p n)

/-! ## sweeps -/

def SweepsDeclarations (p : Pass) (root : Root) (q : Pass) : Prop :=
  Walks (Enters cx) p ((p.forest.rootDeclarations root).map .declaration) q

/-- a root that is no file is located first -/
def SweepsExpressions (p : Pass) (root : Root) (q : Pass) : Prop :=
  (∀ d, root = .declaration d → p.forest.Locates d)
    ∧ Walks (fun s n r => r = enterExpression cx (rootFile p.forest root) s n) p
      ((p.forest.rootDeclarations root).map .declaration) q

end

end Pass

/-- both sweeps, root by root -/
def Repairs (cx : Context) (roots : List Root) (F : Forest) (p : Pass) : Prop :=
  ∃ q, InOrder (Pass.SweepsDeclarations cx) (.start F) roots q
    ∧ InOrder (Pass.SweepsExpressions cx) q roots p

/-! ## the rules leave no choice -/

namespace Pass

section
variable {cx : Context} {p : Pass} {d : DeclarationId}

theorem AddsMember.unique (p : Pass) (m : DeclarationId) (q q' : Pass) (h : AddsMember cx d p m q)
    (h' : AddsMember cx d p m q') : q = q' := h.2.trans h'.2.symm

theorem Implements.unique {q : Pass} (h : Implements cx p d q) :
    ∀ q', Implements cx p d q' → q = q' := by
  induction h using Implements.rec
    (motive_2 := fun p l q _ => ∀ q', InOrder (Implements cx) p l q' → q = q') with
  | seen h =>
    intro q' h'
    cases h' with
    | seen => rfl
    | abstract hn | concrete hn => exact absurd h hn
  | abstract hn hc =>
    intro q' h'
    cases h' with
    | seen h => exact absurd h hn
    | abstract => rfl
    | concrete _ hc' => exact absurd hc' hc
  | concrete hn hc habove _ _ hr ih =>
    intro q' h'
    cases h' with
    | seen h => exact absurd h hn
    | abstract _ hc' => exact absurd hc hc'
    | concrete _ _ habove' hq' _ hr' =>
      obtain rfl := habove.unique habove'
      obtain rfl := ih _ hq'
      exact InOrder.unique AddsMember.unique hr hr'
  | done s q' h' =>
    cases h'
    rfl
  | next _ _ ihn ih q' h' =>
    cases h' with
    | next hn' hrest' =>
      obtain rfl := ihn _ hn'
      exact ih _ hrest'

/-- what the rules give is what `mendClass` computes, if they give anything -/
theorem MendsClass.eq {symbol : SymbolId} {info : ClassInfo} {q : Pass}
    (h : MendsClass cx p d symbol info q) : q = p.mendClass cx d symbol info := by
  unfold MendsClass at h
  unfold mendClass
  dsimp only at h ⊢
  cases hp : classProblem d symbol _ _ with
  | none => simpa only [hp] using h
  | some problem =>
    simp only [hp] at h ⊢
    obtain ⟨r, ⟨_, rfl⟩, rfl⟩ := h
    rfl

theorem MendsFunction.eq {x : Declaration} {r : Bool × Pass} (h : MendsFunction cx p d x r) :
    r = p.repairFunction cx d x := by
  unfold MendsFunction at h
  unfold repairFunction
  dsimp only at h ⊢
  cases hp : functionProblem d x _ with
  | none => simpa only [hp] using h
  | some problem =>
    simp only [hp] at h
    exact Prod.ext h.1 h.2.2

theorem Enters.unique (p : Pass) (n : Node) (r r' : Pass × List Node) (h : Enters cx p n r)
    (h' : Enters cx p n r') : r = r' := by
  cases h with
  | ofClass hx hc hq hr =>
    cases h' with
    | ofClass hx' hc' hq' hr' =>
      obtain rfl := Option.some.inj (hx.symm.trans hx')
      obtain rfl := Content.ofClass.inj (hc.symm.trans hc')
      obtain rfl := hq.eq.trans hq'.eq.symm
      rw [hr.unique _ hr']
    | ofFunction hx' hf' =>
      obtain rfl := Option.some.inj (hx.symm.trans hx')
      cases hc.symm.trans hf'
    | plain hn => exact absurd hc ((hn _ _ rfl hx).1 _)
  | ofFunction hx hf hr =>
    cases h' with
    | ofClass hx' hc' =>
      obtain rfl := Option.some.inj (hx.symm.trans hx')
      cases hf.symm.trans hc'
    | ofFunction hx' _ hr' =>
      obtain rfl := Option.some.inj (hx.symm.trans hx')
      rw [hr.eq, hr'.eq]
    | plain hn => exact absurd hf ((hn _ _ rfl hx).2 _)
  | plain hn =>
    cases h' with
    | ofClass hx hc => exact absurd hc ((hn _ _ rfl hx).1 _)
    | ofFunction hx hf => exact absurd hf ((hn _ _ rfl hx).2 _)
    | plain => rfl

theorem SweepsDeclarations.unique (p : Pass) (root : Root) (q q' : Pass)
    (h : SweepsDeclarations cx p root q) (h' : SweepsDeclarations cx p root q') : q = q' :=
  Walks.unique Enters.unique h h'

theorem SweepsExpressions.unique (p : Pass) (root : Root) (q q' : Pass)
    (h : SweepsExpressions cx p root q) (h' : SweepsExpressions cx p root q') : q = q' :=
  Walks.unique (fun _ _ _ _ hr hr' => hr.trans hr'.symm) h.2 h'.2

end

end Pass

/-- **A repair comes to one end only.** -/
theorem Repairs.unique {cx : Context} {roots : List Root} {F : Forest} {p p' : Pass}
    (h : Repairs cx roots F p) (h' : Repairs cx roots F p') : p = p' := by
  obtain ⟨q, hq, hp⟩ := h
  obtain ⟨q', hq', hp'⟩ := h'
  obtain rfl := InOrder.unique Pass.SweepsDeclarations.unique hq hq'
  exact InOrder.unique Pass.SweepsExpressions.unique hp hp'

end LinkRepair
