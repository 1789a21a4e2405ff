import LinkRepair.Diagnostic.Basic
import LinkRepair.Proofs.Forest.Lineages
import LinkRepair.Proofs.Repair.Kinds
import LinkRepair.Proofs.Repair.Verdicts

/-!
# Reports in a forest under repair

What a report says of the nodes that were there does not change during a repair: their symbols, names
and places stay, and so does all that their nouns are made of.

* `Declaration.Resembles`   two declarations that no report tells apart;
* `Forest.Words F G`        the nodes of `F` are worded in `G` as they are in `F`;
* `Problem.Within F`        a problem that speaks of nodes and symbols of `F` only;
* `Words.problemText`       such a problem has the same wording;
* `Words.declarationLocation`, `Words.addedLocation`   a declaration has the same location, and what
                            is put into a class is located with the class.
-/

namespace LinkRepair

/-- everything that a report can say about a declaration is the same -/
structure Declaration.Resembles (x y : Declaration) : Prop where
  symbol : y.symbol = x.symbol
  name : y.name = x.name
  origin : y.origin = x.origin
  parent : y.parent = x.parent
  span : y.span = x.span
  isClass : y.isClass = x.isClass
  noun : ∀ kind signature, declarationNoun kind signature (some y)
    = declarationNoun kind signature (some x)

theorem Declaration.Becomes.resembles {I : Intrinsics} {F : Forest} {m : Memo} {x y : Declaration}
    (h : x.Becomes I F m y) : x.Resembles y where
  symbol := h.symbol
  name := h.name
  origin := h.origin
  parent := h.parent
  span := h.span
  isClass := h.isClass
  noun := fun kind signature => by
    obtain ⟨_, _, _, _, _, content⟩ := x
    obtain ⟨_, _, _, _, _, content'⟩ := y
    have hc := h.content
    dsimp only at hc
    cases hc with
    | ofField hf => rcases hf with rfl | ⟨_, _, rfl⟩ <;> cases kind <;> rfl
    | ofVariable hv => rcases hv with rfl | ⟨_, _, rfl⟩ <;> cases kind <;> rfl
    | _ => cases kind <;> rfl

namespace Forest

/-- the nodes of `F` are worded in `G` as they are in `F` -/
structure Words (F G : Forest) : Prop where
  name : G.name = F.name
  files : G.files = F.files
  symbol? : ∀ s x, F.symbol? s = some x → G.symbol? s = some x
  declaration? : ∀ d x, F.declaration? d = some x → ∃ y, G.declaration? d = some y ∧ x.Resembles y

namespace Words

section
variable {F G : Forest} {d a : DeclarationId} {s : SymbolId} {e : ExpressionId} (h : F.Words G)
include h

/-! ## locations -/

theorem size_le : F.declarations.size ≤ G.declarations.size := by
  by_cases hzero : F.declarations.size = 0
  · omega
  · have hsome : (F.declaration? ⟨F.declarations.size - 1⟩).isSome :=
      declaration?_isSome.mpr (by show F.declarations.size - 1 < _; omega)
    obtain ⟨x, hx⟩ := Option.isSome_iff_exists.mp hsome
    obtain ⟨y, hy, _⟩ := h.declaration? _ x hx
    have hlt := declaration?_isSome.mp (Option.isSome_iff_exists.mpr ⟨y, hy⟩)
    replace hlt : F.declarations.size - 1 < G.declarations.size := hlt
    omega

theorem lineageWithin (hP : F.ParentsKnown) : ∀ (n : Nat) {d : DeclarationId},
    (F.declaration? d).isSome → G.lineageWithin n d = F.lineageWithin n d
  | 0, _, _ => rfl
  | n + 1, d, hd => by
    obtain ⟨x, hx⟩ := Option.isSome_iff_exists.mp hd
    obtain ⟨y, hy, hr⟩ := h.declaration? d x hx
    have hparent : y.parentDeclaration? = x.parentDeclaration? := by
      unfold Declaration.parentDeclaration?
      rw [hr.parent]
    unfold Forest.lineageWithin
    rw [hx, hy]
    simp only [hparent]
    cases hp : x.parentDeclaration? with
    | none => rfl
    | some p => simp only [lineageWithin hP n (hP d x p hx hp)]

theorem fileWithin (hP : F.ParentsKnown) (n : Nat) (hd : (F.declaration? d).isSome) :
    G.fileWithin n d = F.fileWithin n d := by
  unfold Forest.fileWithin
  rw [h.lineageWithin hP n hd]
  cases hl : (F.lineageWithin n d).getLast? with
  | none => rfl
  | some b =>
    obtain ⟨x, hx⟩ := Option.isSome_iff_exists.mp
      (isSome_of_mem_lineageWithin (List.mem_of_getLast? hl))
    obtain ⟨y, hy, hr⟩ := h.declaration? b x hx
    simp only [Option.bind_some, hx, hy, hr.parent]

/-- the closest declaration that a user wrote is as far up, and at the same place -/
theorem startOffset : ∀ {l : List DeclarationId}, (∀ b ∈ l, (F.declaration? b).isSome) →
    (((l.filterMap G.declaration?).find? fun x => !x.origin.isStandIn).bind
        fun x => x.span.startOffset?)
      = ((l.filterMap F.declaration?).find? fun x => !x.origin.isStandIn).bind
        fun x => x.span.startOffset?
  | [], _ => rfl
  | b :: l, hl => by
    obtain ⟨x, hx⟩ := Option.isSome_iff_exists.mp (hl b List.mem_cons_self)
    obtain ⟨y, hy, hr⟩ := h.declaration? b x hx
    rw [List.filterMap_cons_some hx, List.filterMap_cons_some hy, List.find?_cons, List.find?_cons,
      hr.origin]
    cases !x.origin.isStandIn with
    | true => simp only [Option.bind_some, hr.span]
    | false => exact startOffset fun c hc => hl c (List.mem_cons_of_mem _ hc)

theorem locate (f : FileId) (offset : Option UInt32) : G.locate f offset = F.locate f offset := by
  unfold Forest.locate file?
  rw [h.files, h.name]

/-- **A declaration has the same location.** -/
theorem declarationLocation (hP : F.ParentsKnown) (hd : (F.declaration? d).isSome) :
    G.declarationLocation d = F.declarationLocation d := by
  have hfile : G.fileOf d = F.fileOf d := by
    rw [fileOf_eq, h.fileWithin hP _ hd, fileWithin_of_le h.size_le]
  unfold Forest.declarationLocation
  rw [hfile]
  cases hf : F.fileOf d with
  | none => rfl
  | some f =>
    have hlineage : G.lineage d = F.lineage d := by
      unfold lineage
      rw [h.lineageWithin hP _ hd]
      exact lineageWithin_of_fileWithin ((fileWithin_of_le h.size_le).trans hf)
    have hstored : ∀ b ∈ F.lineage d, (F.declaration? b).isSome := fun b hb =>
      isSome_of_mem_lineageWithin hb
    rw [Option.bind_some, Option.bind_some, h.locate, sourceOffset?, hlineage, h.startOffset hstored,
      ← sourceOffset?]

/-- **What is put into a declaration has its location**, as it stands in for something itself. -/
theorem addedLocation (hP : F.ParentsKnown) (hd : (F.declaration? d).isSome) {y : Declaration}
    (hnew : F.declaration? a = none) (hy : G.declaration? a = some y) (ho : y.origin.isStandIn)
    (hp : y.parent = some (.declaration d)) :
    G.declarationLocation a = F.declarationLocation d := by
  have hsize : F.declarations.size < G.declarations.size := by
    have hlt : a.index < G.declarations.size :=
      declaration?_isSome.mp (Option.isSome_iff_exists.mpr ⟨y, hy⟩)
    have hle : F.declarations.size ≤ a.index := by
      by_contra hlt'
      have := declaration?_isSome.mpr (Nat.lt_of_not_le hlt')
      rw [hnew] at this
      cases this
    omega
  obtain ⟨k, hk⟩ : ∃ k, G.declarations.size = k + 1 := ⟨_, (Nat.succ_pred (by omega)).symm⟩
  have hlineage : G.lineage a = a :: F.lineageWithin k d := by
    rw [lineage, hk, lineageWithin_of_parent k hy hp, h.lineageWithin hP k hd]
  have hfile : G.fileOf a = F.fileOf d := by
    have hlast : (G.lineage a).getLast? = (G.lineageWithin k d).getLast? := by
      obtain ⟨x, hx⟩ := Option.isSome_iff_exists.mp hd
      have hpos : d.index < F.declarations.size := declaration?_isSome.mp hd
      obtain ⟨j, rfl⟩ : ∃ j, k = j + 1 := ⟨_, (Nat.succ_pred (by omega)).symm⟩
      rw [hlineage, h.lineageWithin hP _ hd, Forest.lineageWithin, hx]
      exact List.getLast?_cons_cons
    rw [← fileWithin_of_le (show F.declarations.size ≤ k by omega), ← h.fileWithin hP k hd,
      fileOf_eq, Forest.fileWithin, Forest.fileWithin, ← hlast, lineage]
  unfold Forest.declarationLocation
  rw [hfile]
  cases hf : F.fileOf d with
  | none => rfl
  | some f =>
    have hrest : F.lineageWithin k d = F.lineage d :=
      lineageWithin_of_fileWithin ((fileWithin_of_le (by omega)).trans hf)
    have hstored : ∀ b ∈ F.lineage d, (F.declaration? b).isSome := fun b hb =>
      isSome_of_mem_lineageWithin hb
    rw [Option.bind_some, Option.bind_some, h.locate, sourceOffset?, hlineage, hrest,
      List.filterMap_cons_some hy, List.find?_cons, ho, Bool.not_true, h.startOffset hstored,
      ← sourceOffset?]

theorem expressionLocation (file : Option FileId) (he : G.expression? e = F.expression? e) :
    G.expressionLocation file e = F.expressionLocation file e := by
  unfold Forest.expressionLocation
  rw [he]
  cases file with
  | none => rfl
  | some f => exact h.locate f _

/-! ## texts -/

theorem signatureText (hs : F.Knows s) : G.signatureText s = F.signatureText s := by
  obtain ⟨x, hx⟩ := Option.isSome_iff_exists.mp hs
  unfold Forest.signatureText
  rw [hx, h.symbol? s x hx]

theorem definition? (hO : F.OwnersMatch) (hs : F.Knows s) :
    F.definition? s = none ∧ G.definition? s = none
      ∨ ∃ x y, F.definition? s = some x ∧ G.definition? s = some y ∧ x.Resembles y := by
  obtain ⟨z, hz⟩ := Option.isSome_iff_exists.mp hs
  have howner : G.owner? s = F.owner? s := by
    unfold owner?
    rw [hz, h.symbol? s z hz]
  unfold Forest.definition?
  rw [howner]
  cases ho : F.owner? s with
  | none => exact .inl ⟨rfl, rfl⟩
  | some d =>
    obtain ⟨x, hx, _⟩ := hO s d ho
    obtain ⟨y, hy, hr⟩ := h.declaration? d x hx
    exact .inr ⟨x, y, hx, hy, hr⟩

theorem noun (hO : F.OwnersMatch) (hs : F.Knows s) : G.noun s = F.noun s := by
  obtain ⟨z, hz⟩ := Option.isSome_iff_exists.mp hs
  unfold Forest.noun
  rw [hz, h.symbol? s z hz]
  rcases h.definition? hO hs with ⟨hF, hG⟩ | ⟨x, y, hF, hG, hr⟩
  · rw [hF, hG]
  · rw [hF, hG]
    exact hr.noun _ _

theorem symbolText (hO : F.OwnersMatch) (hs : F.Knows s) : G.symbolText s = F.symbolText s := by
  have hguess : G.guessedName s = F.guessedName s := by
    obtain ⟨z, hz⟩ := Option.isSome_iff_exists.mp hs
    unfold guessedName
    rw [hz, h.symbol? s z hz]
  have hname : G.symbolName s = F.symbolName s := by
    unfold symbolName
    rcases h.definition? hO hs with ⟨hF, hG⟩ | ⟨x, y, hF, hG, hr⟩
    · rw [hF, hG, hguess]
    · rw [hF, hG]
      simp only [hr.name, hguess]
  unfold Forest.symbolText
  rw [h.noun hO hs, hname]

theorem declarationText (hO : F.OwnersMatch) {x : Declaration} (hx : F.declaration? d = some x)
    (hs : F.Knows x.symbol) : G.declarationText d = F.declarationText d := by
  obtain ⟨y, hy, hr⟩ := h.declaration? d x hx
  unfold Forest.declarationText
  rw [hx, hy]
  simp only [hr.symbol, h.symbolText hO hs]

theorem causeText (hO : F.OwnersMatch) {k : Cause} (hk : ∀ l ∈ k.links, F.Knows l.symbol) :
    G.causeText k = F.causeText k := by
  induction k with
  | missing s =>
    have hs : F.Knows s := hk (.missing s) List.mem_cons_self
    show _ ++ G.signatureText s = _ ++ F.signatureText s
    rw [h.signatureText hs]
  | missingEnclosing s =>
    have hs : F.Knows s := hk (.missingEnclosing s) List.mem_cons_self
    show G.symbolText s ++ _ = F.symbolText s ++ _
    rw [h.symbolText hO hs]
  | due s root ih =>
    have hs : F.Knows s := hk (.due s root) List.mem_cons_self
    show _ ++ G.signatureText s ++ _ ++ G.causeText root ++ _
      = _ ++ F.signatureText s ++ _ ++ F.causeText root ++ _
    rw [h.signatureText hs, ih fun l hl => hk l (List.mem_cons_of_mem _ hl)]

theorem expressionText (hO : F.OwnersMatch) (he : G.expression? e = F.expression? e)
    (hs : ∀ x s, F.expression? e = some x → x.operation.phrase.2 = some s → F.Knows s) :
    G.expressionText e = F.expressionText e := by
  unfold Forest.expressionText
  rw [he]
  cases hx : F.expression? e with
  | none => rfl
  | some x =>
    cases hp : x.operation.phrase with
    | mk phrase subject =>
      cases subject with
      | none =>
        simp only [hp]
        cases phrase.opening <;> rfl
      | some s =>
        have htext := h.symbolText hO (hs x s hx (by rw [hp]))
        simp only [hp]
        cases phrase.opening <;> simp only [htext]

end

end Words

/-- a declaration of the forest, with a symbol of the forest -/
def KnowsDeclaration (F : Forest) (d : DeclarationId) : Prop :=
  ∃ x, F.declaration? d = some x ∧ F.Knows x.symbol

def KnowsCause (F : Forest) (k : Cause) : Prop := ∀ l ∈ k.links, F.Knows l.symbol

/-- an expression of the forest, which refers to a symbol of the forest if it refers to one -/
def KnowsExpression (F : Forest) (e : ExpressionId) : Prop :=
  ∃ x, F.expression? e = some x ∧ ∀ s, x.operation.phrase.2 = some s → F.Knows s

end Forest

/-- a problem with a declaration, all in the forest -/
inductive Problem.Within (F : Forest) : Problem → Prop
  | missingDeclaration {s : SymbolId} (hs : F.Knows s) : Within F (.missingDeclaration s)
  | missingEnclosingClass {d : DeclarationId} (hd : F.KnowsDeclaration d) :
      Within F (.missingEnclosingClass d)
  | brokenSignature {d : DeclarationId} {k : Cause} (hd : F.KnowsDeclaration d)
      (hk : F.KnowsCause k) : Within F (.brokenSignature d k)

/-- a problem with the expression `e`, all in the forest -/
inductive Problem.About (F : Forest) (e : ExpressionId) : Problem → Prop
  | missingReference {s : SymbolId} (hs : F.Knows s) : About F e (.missingReference e s)
  | brokenReference {k : Cause} (hk : F.KnowsCause k) : About F e (.brokenReference e k)
  | brokenTarget {d : DeclarationId} {k : Cause} (hd : F.KnowsDeclaration d) (hk : F.KnowsCause k) :
      About F e (.brokenTarget e d k)

namespace Forest

namespace Words

section
variable {F G : Forest} {d : DeclarationId} {e : ExpressionId} {problem : Problem} (h : F.Words G)
  (hO : F.OwnersMatch)
include h hO

/-- **A problem with a declaration has the same wording.** -/
theorem problemText (hp : problem.Within F) : G.problemText problem = F.problemText problem := by
  cases hp with
  | @missingDeclaration s hs =>
    show _ ++ (G.noun s).text ++ _ ++ G.signatureText s = _ ++ (F.noun s).text ++ _ ++ F.signatureText s
    rw [h.noun hO hs, h.signatureText hs]
  | @missingEnclosingClass d hd =>
    obtain ⟨x, hx, hs⟩ := hd
    show G.declarationText d ++ _ = F.declarationText d ++ _
    rw [h.declarationText hO hx hs]
  | @brokenSignature d k hd hk =>
    obtain ⟨x, hx, hs⟩ := hd
    show _ ++ G.declarationText d ++ _ ++ G.causeText k
      = _ ++ F.declarationText d ++ _ ++ F.causeText k
    rw [h.declarationText hO hx hs, h.causeText hO hk]

/-- **A problem with an expression has the same wording** as long as the expression stays. -/
theorem expressionProblemText (hp : problem.About F e) (he : F.KnowsExpression e)
    (hG : G.expression? e = F.expression? e) : G.problemText problem = F.problemText problem := by
  obtain ⟨x, hx, hphrase⟩ := he
  have htext : G.expressionText e = F.expressionText e := h.expressionText hO hG fun y s hy hs => by
    obtain rfl := Option.some.inj (hx.symm.trans hy)
    exact hphrase s hs
  cases hp with
  | @missingReference s hs =>
    show G.expressionText e ++ _ ++ G.signatureText s = F.expressionText e ++ _ ++ F.signatureText s
    rw [htext, h.signatureText hs]
  | @brokenReference k hk =>
    show G.expressionText e ++ _ ++ G.causeText k = F.expressionText e ++ _ ++ F.causeText k
    rw [htext, h.causeText hO hk]
  | @brokenTarget d k hd hk =>
    obtain ⟨y, hy, hs⟩ := hd
    show G.expressionText e ++ _ ++ G.declarationText d ++ _ ++ G.causeText k
      = F.expressionText e ++ _ ++ F.declarationText d ++ _ ++ F.causeText k
    rw [htext, h.declarationText hO hy hs, h.causeText hO hk]

end

end Words

end Forest

theorem Pass.Frames.words {I : Intrinsics} {T K : DeclarationId → Prop} {p q : Pass}
    (h : Pass.Frames I T K p q) : p.forest.Words q.forest where
  name := h.name
  files := h.files
  symbol? := h.symbol?
  declaration? := fun d x hx =>
    have ⟨y, hy, hb, _⟩ := h.declaration? d x hx
    ⟨y, hy, hb.resembles⟩

end LinkRepair
