import LinkRepair.Proofs.Repair.Agreement

/-!
# The questions of a repair

A repair asks about classifiers all the time, in a forest that it changes and with one memo.  Here is
the list of its questions, each with the pass in which it is asked.  It follows the operations that
ask, and it is complete: one question after the other makes the last memo out of the empty one.

* `Question`             a classifier, and the pass in which it is asked about;
* `Inquiry m qs m'`      these questions, and no others, lead from one memo to another;
* `Pass.inquire`         the questions about a list of classifiers, up to the first broken one;
* `declarationQuestions`, `expressionQuestions`   the questions of one visit of either sweep;
* `repairQuestions`      those of a repair;
* `Pass.Asks R p qs q`   an operation from `p` to `q` asks `qs`, in passes that `R` relates to `p`;
* `inquiry_repair`       the list is complete.
-/

namespace LinkRepair

structure Question where
  pass : Pass
  symbol : SymbolId

namespace Question

/-- the answer that is given -/
def verdict (q : Question) : Verdict := (q.pass.forest.explore q.pass.memo q.symbol).1

/-- the memo after it is given -/
def memo (q : Question) : Memo := (q.pass.forest.explore q.pass.memo q.symbol).2

end Question

inductive Inquiry : Memo → List Question → Memo → Prop
  | done (m : Memo) : Inquiry m [] m
  | ask (q : Question) {qs : List Question} {m : Memo} (h : Inquiry q.memo qs m) :
      Inquiry q.pass.memo (q :: qs) m

theorem Inquiry.append {m m' m'' : Memo} {qs rs : List Question} (h : Inquiry m qs m')
    (h' : Inquiry m' rs m'') : Inquiry m (qs ++ rs) m'' := by
  induction h with
  | done => exact h'
  | ask q _ ih => exact .ask q (ih h')

namespace Pass

/-! ## what is asked -/

section
variable (cx : Context) (p : Pass)

/-- one classifier after the other, up to the first broken one -/
def inquire (p : Pass) : List SymbolId → List Question
  | [] => []
  | s :: rest => ⟨p, s⟩ ::
    match p.forest.explore p.memo s with
    | (some _, _) => []
    | (none, memo) => inquire { p with memo := memo } rest

def parameterQuestions (d : DeclarationId) : List Question :=
  match p.forest.parameter? d with
  | none => []
  | some info => p.inquire (info.types.flatMap TypeRef.mentioned)

def typeParameterQuestions (d : DeclarationId) : List Question :=
  match p.forest.declaration? d with
  | none => []
  | some x => p.inquire [x.symbol]

def partQuestions (returnType : TypeRef) : SignaturePart → List Question
  | .parameter d => p.parameterQuestions d
  | .returnType => p.inquire returnType.mentioned
  | .typeParameter d => p.typeParameterQuestions d

def signatureQuestions (function : DeclarationId) : List Question :=
  match p.forest.function? function with
  | none => []
  | some f => inTurn (fun q part => q.partQuestions f.returnType part)
      (fun q part => (fixPart cx function f.returnType q part).2) p f.signature

def valueQuestions (d : DeclarationId) : List Question :=
  match (p.forest.declaration? d).bind Declaration.valueType? with
  | none => []
  | some type => p.inquire type.mentioned

def typesQuestions (types : List TypeRef) : List Question :=
  inTurn (fun q t => q.inquire t.mentioned) (fun q t => (q.ask t.mentioned).2) p types

/-- what is asked about a class that turned out to be broken -/
def breakQuestions (d : DeclarationId) (problem : Problem) : List Question :=
  let initializer := p.initializerOf d
  let raised := initializer.2.raiseIn cx problem initializer.1
  match raised.forest.class? d with
  | none => []
  | some c => raised.typesQuestions c.superTypes

def classQuestions (d : DeclarationId) (symbol : SymbolId) (c : ClassInfo) : List Question :=
  let bound := p.fixTypeParameters cx c.typeParameters
  let verdict := bound.2.ask [symbol]
  inTurn typeParameterQuestions (fun q d => (fixTypeParameter cx q d).2) p c.typeParameters
    ++ bound.2.inquire [symbol]
    ++ match classProblem d symbol verdict.1 bound.1 with
      | none => []
      | some problem => verdict.2.breakQuestions cx d problem

def demandQuestions : Demand → List Question
  | .type t => p.inquire t.mentioned
  | .symbol s =>
    if p.forest.isMissing s then []
    else
      match p.forest.owner? s with
      | none => []
      | some d =>
        match p.forest.declaration? d with
        | none => []
        | some x => p.inquire (p.forest.suspects s d x)

/-- one demand after the other, up to the first that is not met -/
def demandsQuestions (e : ExpressionId) (p : Pass) : List Demand → List Question
  | [] => []
  | demand :: rest => p.demandQuestions demand ++
    match p.forest.demandProblem e p.memo demand with
    | (some _, _) => []
    | (none, memo) => demandsQuestions e { p with memo := memo } rest

end

/-- what the first sweep asks when it visits a node -/
def declarationQuestions (cx : Context) (v : Pass × Node) : List Question :=
  match v.2 with
  | .expression _ => []
  | .declaration d =>
    match v.1.forest.declaration? d with
    | none => []
    | some x =>
      match x.content with
      | .ofClass c => v.1.classQuestions cx d x.symbol c
      | .ofFunction _ => (v.1.filterOverridden d).signatureQuestions cx d
      | .ofField _ | .ofVariable _ => v.1.valueQuestions d
      | .ofProperty _ | .ofParameter _ | .ofTypeParameter _ | .ofEnumEntry _ | .ofInitializer _ => []

/-- what the second sweep asks when it visits a node -/
def expressionQuestions (v : Pass × Node) : List Question :=
  match v.2 with
  | .declaration _ => []
  | .expression e =>
    match v.1.forest.expression? e with
    | none => []
    | some x => v.1.demandsQuestions e x.demands

end Pass

/-- **All questions of a repair**, in the order in which they are asked -/
def repairQuestions (cx : Context) (roots : List Root) (F : Forest) : List Question :=
  (declarationVisits cx roots (.start F)).flatMap (Pass.declarationQuestions cx)
    ++ (expressionVisits cx roots (repairDeclarations cx roots (.start F))).flatMap
      Pass.expressionQuestions

namespace Pass

/-! ## that nothing else is asked -/

structure Asks (R : Pass → Pass → Prop) (p : Pass) (qs : List Question) (q : Pass) : Prop where
  inquiry : Inquiry p.memo qs q.memo
  related : R p q
  each : ∀ x ∈ qs, R p x.pass

section
variable {cx : Context} {c : Scope} {R : Pass → Pass → Prop} {p q r : Pass} {qs rs : List Question}

/-- a relation that leaves room for questions -/
structure Inquisitive (R : Pass → Pass → Prop) : Prop where
  refl : ∀ p, R p p
  trans : ∀ {p q r}, R p q → R q r → R p r
  ask : ∀ p s, R p { p with memo := (p.forest.explore p.memo s).2 }

/-- an operation that asks nothing -/
theorem asks_nil (h : R p q) (hm : q.memo = p.memo) : Asks R p [] q :=
  ⟨hm ▸ .done q.memo, h, fun _ hx => absurd hx List.not_mem_nil⟩

/-- an edit after the last question -/
theorem Asks.edited (h : Asks R p qs q) (hr : R p r) (hm : r.memo = q.memo) : Asks R p qs r :=
  ⟨hm ▸ h.inquiry, hr, h.each⟩

theorem Asks.trans (hR : Inquisitive R) (h : Asks R p qs q) (h' : Asks R q rs r) :
    Asks R p (qs ++ rs) r where
  inquiry := h.inquiry.append h'.inquiry
  related := hR.trans h.related h'.related
  each := fun x hx => by
    rcases List.mem_append.mp hx with hx | hx
    · exact h.each x hx
    · exact hR.trans h.related (h'.each x hx)

theorem asks_ask (hR : Inquisitive R) : ∀ (l : List SymbolId) (p : Pass),
    Asks R p (p.inquire l) (p.ask l).2 := by
  intro l
  induction l with
  | nil => exact fun p => asks_nil (hR.refl p) rfl
  | cons s rest ih =>
    intro p
    have hstep := hR.ask p s
    cases hv : (p.forest.explore p.memo s).1 with
    | some c =>
      have hlist : p.inquire (s :: rest) = [⟨p, s⟩] := by
        unfold inquire
        split
        · rfl
        · rename_i e
          rw [e] at hv
          cases hv
      have hend : (p.ask (s :: rest)).2 = { p with memo := (p.forest.explore p.memo s).2 } := by
        unfold ask
        rw [Forest.exploreFirst_cons_of_some hv]
      rw [hlist, hend]
      exact ⟨.ask ⟨p, s⟩ (.done _), hstep, fun x hx => by rw [List.mem_singleton.mp hx]; exact hR.refl p⟩
    | none =>
      have hlist : p.inquire (s :: rest)
          = ⟨p, s⟩ :: inquire { p with memo := (p.forest.explore p.memo s).2 } rest := by
        conv_lhs => unfold inquire
        split
        · rename_i e
          rw [e] at hv
          cases hv
        · rename_i e
          rw [e]
      have hend : (p.ask (s :: rest)).2
          = (ask { p with memo := (p.forest.explore p.memo s).2 } rest).2 := by
        unfold ask
        rw [Forest.exploreFirst_cons_of_none hv]
      obtain ⟨hinquiry, hrelated, heach⟩ := ih { p with memo := (p.forest.explore p.memo s).2 }
      rw [hlist, hend]
      refine ⟨.ask ⟨p, s⟩ hinquiry, hR.trans hstep hrelated, fun x hx => ?_⟩
      rcases List.mem_cons.mp hx with rfl | hx
      · exact hR.refl p
      · exact hR.trans hstep (heach x hx)

theorem inTurn_append {σ ν β : Type} (f : σ → ν → List β) (go : σ → ν → σ) : ∀ (l l' : List ν) (s : σ),
    inTurn f go s (l ++ l') = inTurn f go s l ++ inTurn f go (l.foldl go s) l' := by
  intro l l'
  induction l with
  | nil => exact fun _ => rfl
  | cons a l ih =>
    intro s
    show f s a ++ inTurn f go (go s a) (l ++ l') = _
    rw [ih, ← List.append_assoc]
    rfl

/-- one thing after the other -/
theorem asks_inTurn (hR : Inquisitive R) {α : Type} {g : Pass → α → List Question} {f : Pass → α → Pass}
    {P : Pass → Prop} : ∀ {l : List α} {p : Pass},
      (∀ q, ∀ a ∈ l, P q → Asks R q (g q a) (f q a) ∧ P (f q a)) → P p →
      Asks R p (inTurn g f p l) (l.foldl f p) ∧ P (l.foldl f p) := by
  intro l
  induction l with
  | nil => exact fun {p} _ hp => ⟨asks_nil (hR.refl p) rfl, hp⟩
  | cons a l ih =>
    intro p h hp
    obtain ⟨ha, hpa⟩ := h p a List.mem_cons_self hp
    obtain ⟨hl, hpl⟩ := ih (fun q b hb => h q b (List.mem_cons_of_mem _ hb)) hpa
    exact ⟨ha.trans hR hl, hpl⟩

theorem each_snd {α : Type} (f : Pass → α → Verdict × Pass) : ∀ (l : List α) (p : Pass),
    (Pass.each f p l).2 = l.foldl (fun q a => (f q a).2) p := by
  intro l
  induction l with
  | nil => exact fun _ => rfl
  | cons a l ih => exact fun p => ih (f p a).2

/-! ## the first sweep -/

theorem inquisitive_chain : Inquisitive (Chain cx c) where
  refl := fun _ => .refl
  trans := .trans
  ask := fun p s => by
    have h : Chain cx c p (p.ask [s]).2 := chain_ask [s]
    have hend : (p.ask [s]).2 = { p with memo := (p.forest.explore p.memo s).2 } := by
      unfold ask
      cases hv : (p.forest.explore p.memo s).1 with
      | some k => rw [Forest.exploreFirst_cons_of_some hv]
      | none =>
        rw [Forest.exploreFirst_cons_of_none hv]
        rfl
    rwa [hend] at h

/-- the questions of a chain of steps -/
abbrev ChainAsks (cx : Context) : Pass → List Question → Pass → Prop :=
  Asks (Chain cx Scope.everything)

theorem asks_fixParameter (p : Pass) (d : DeclarationId) :
    ChainAsks cx p (p.parameterQuestions d) (p.fixParameter cx d).2 := by
  have hchain : Chain cx Scope.everything p (p.fixParameter cx d).2 :=
    (chain_fixParameter cx p trivial).1
  unfold parameterQuestions
  cases hd : p.forest.parameter? d with
  | none =>
    refine asks_nil hchain ?_
    simp [fixParameter, hd]
  | some info =>
    refine (asks_ask inquisitive_chain (info.types.flatMap TypeRef.mentioned) p).edited hchain ?_
    simp only [fixParameter, hd]
    generalize p.ask (info.types.flatMap TypeRef.mentioned) = answer
    obtain ⟨_ | k, q⟩ := answer <;> rfl

theorem asks_fixTypeParameter (p : Pass) (d : DeclarationId) :
    ChainAsks cx p (p.typeParameterQuestions d) (p.fixTypeParameter cx d).2 := by
  have hchain : Chain cx Scope.everything p (p.fixTypeParameter cx d).2 := chain_fixTypeParameter trivial
  unfold typeParameterQuestions
  cases hd : p.forest.declaration? d with
  | none =>
    refine asks_nil hchain ?_
    simp [fixTypeParameter, hd]
  | some x =>
    refine (asks_ask inquisitive_chain [x.symbol] p).edited hchain ?_
    simp only [fixTypeParameter, hd]
    generalize p.ask [x.symbol] = answer
    obtain ⟨_ | k, q⟩ := answer <;> rfl

theorem asks_fixReturnType {d : DeclarationId} {f : FunctionInfo} (hd : p.forest.function? d = some f) :
    ChainAsks cx p (p.inquire f.returnType.mentioned) (p.fixReturnType cx d f.returnType).2 := by
  refine (asks_ask inquisitive_chain f.returnType.mentioned p).edited (chain_fixReturnType trivial hd) ?_
  unfold fixReturnType
  generalize p.ask f.returnType.mentioned = answer
  obtain ⟨_ | k, q⟩ := answer <;> rfl

theorem asks_fixSignature (p : Pass) (d : DeclarationId) :
    ChainAsks cx p (p.signatureQuestions cx d) (p.fixSignature cx d).2 := by
  unfold signatureQuestions fixSignature
  cases hd : p.forest.function? d with
  | none => exact asks_nil .refl rfl
  | some f =>
    dsimp only
    rw [each_snd, FunctionInfo.signature_eq, inTurn_append, List.foldl_append]
    -- up to the return type the function is as it was
    obtain ⟨h₁, hd₁⟩ := asks_inTurn (R := Chain cx Scope.everything) inquisitive_chain
      (g := fun q part => q.partQuestions f.returnType part)
      (f := fun q part => (fixPart cx d f.returnType q part).2) (P := fun q => q.forest.function? d = some f)
      (l := (f.extensionReceiver.toList ++ f.valueParameters).map SignaturePart.parameter) (p := p)
      (fun q part hpart hq => by
        obtain ⟨a, _, rfl⟩ := List.mem_map.mp hpart
        exact ⟨asks_fixParameter q a, ((chain_fixParameter cx q (c := Scope.everything) trivial).2 d).trans hq⟩) hd
    refine h₁.trans inquisitive_chain ((asks_fixReturnType hd₁).trans inquisitive_chain ?_)
    refine (asks_inTurn inquisitive_chain (P := fun _ => True) (fun q part hpart _ => ⟨?_, trivial⟩) trivial).1
    rcases List.mem_append.mp hpart with hpart | hpart
    · obtain ⟨a, _, rfl⟩ := List.mem_map.mp hpart
      exact asks_fixTypeParameter q a
    · obtain ⟨a, _, rfl⟩ := List.mem_map.mp hpart
      exact asks_fixParameter q a

theorem asks_fixValue (p : Pass) (d : DeclarationId) :
    ChainAsks cx p (p.valueQuestions d) (p.fixValue cx d).2 := by
  have hchain : Chain cx Scope.everything p (p.fixValue cx d).2 := chain_fixValue trivial
  unfold valueQuestions
  cases hd : (p.forest.declaration? d).bind Declaration.valueType? with
  | none =>
    refine asks_nil hchain ?_
    simp [fixValue, hd]
  | some type =>
    refine (asks_ask inquisitive_chain type.mentioned p).edited hchain ?_
    simp only [fixValue, hd]
    generalize p.ask type.mentioned = answer
    obtain ⟨_ | k, q⟩ := answer <;> rfl

theorem linkedTypes_snd : ∀ (ts : List TypeRef) (p : Pass),
    (p.linkedTypes ts).2 = ts.foldl (fun q t => (q.ask t.mentioned).2) p := by
  intro ts
  induction ts with
  | nil => exact fun _ => rfl
  | cons t ts ih => exact fun p => ih (p.ask t.mentioned).2

theorem asks_dropBrokenSuperTypes {d : DeclarationId}
    (hs : ∀ x, p.forest.declaration? d = some x → (p.memo.find? x.symbol).isSome) :
    ChainAsks cx p (match p.forest.class? d with
      | none => []
      | some c => p.typesQuestions c.superTypes) (p.dropBrokenSuperTypes d) := by
  have hchain : Chain cx Scope.everything p (p.dropBrokenSuperTypes d) :=
    chain_dropBrokenSuperTypes trivial hs
  cases hd : p.forest.class? d with
  | none =>
    refine asks_nil hchain ?_
    simp [dropBrokenSuperTypes, hd]
  | some info =>
    have htypes := (asks_inTurn (R := Chain cx Scope.everything) inquisitive_chain
      (g := fun q t => q.inquire t.mentioned) (f := fun q t => (q.ask t.mentioned).2)
      (P := fun _ => True) (l := info.superTypes) (p := p)
      (fun q t _ _ => ⟨asks_ask inquisitive_chain t.mentioned q, trivial⟩) trivial).1
    rw [← linkedTypes_snd] at htypes
    refine htypes.edited hchain ?_
    simp only [dropBrokenSuperTypes, hd]
    rfl

theorem memo_implementWithin (cx : Context) : ∀ (bound : Nat) (p : Pass) (d : DeclarationId),
    (implementWithin cx bound p d).memo = p.memo := by
  refine implementWithin_induction (motive := fun _ p _ q => q.memo = p.memo)
    ?stop ?seen ?abstract ?concrete
  case stop => exact fun _ _ => rfl
  case seen => exact fun _ _ _ _ => rfl
  case abstract => exact fun _ _ _ _ _ => rfl
  case concrete =>
    intro bound p d ih _ _ q hq
    have habove : q.memo = p.memo := hq ▸ List.foldlRecOn (motive := fun q : Pass => q.memo = p.memo)
      _ _ rfl fun q hq a _ => (ih q a).trans hq
    exact List.foldlRecOn (motive := fun q : Pass => q.memo = p.memo) _ _ habove fun q hq m _ => hq

theorem asks_breakClass {d : DeclarationId} {problem : Problem} (hclass : (p.forest.class? d).isSome)
    (hs : ∀ x, p.forest.declaration? d = some x → (p.memo.find? x.symbol).isSome) :
    ChainAsks cx p (p.breakQuestions cx d problem) (p.breakClass cx d problem) := by
  have hraise : Chain cx Scope.everything p
      ((p.initializerOf d).2.raiseIn cx problem (p.initializerOf d).1) :=
    chain_raiseInitializer trivial hclass (fun _ _ => trivial) fun _ _ => trivial
  have hmemo : ((p.initializerOf d).2.raiseIn cx problem (p.initializerOf d).1).memo = p.memo := by
    unfold initializerOf
    split <;> rfl
  exact (asks_nil hraise hmemo).trans inquisitive_chain
    (asks_dropBrokenSuperTypes (Chain.asked hraise hclass hs))

theorem asks_repairClass {d : DeclarationId} {x : Declaration} {info : ClassInfo}
    (hx : p.forest.declaration? d = some x) (hc : x.content = .ofClass info) :
    ChainAsks cx p (p.classQuestions cx d x.symbol info) (p.repairClass cx d x.symbol info) := by
  have hclass : p.forest.class? d = some info :=
    Option.bind_eq_some_iff.mpr ⟨x, hx, Forest.class?_eq_some.mpr hc⟩
  obtain ⟨hbounds, hclass'⟩ := asks_inTurn (R := Chain cx Scope.everything) inquisitive_chain
    (g := typeParameterQuestions) (f := fun q a => (fixTypeParameter cx q a).2)
    (P := fun q => q.forest.class? d = some info) (l := info.typeParameters) (p := p)
    (fun q a _ hq => ⟨asks_fixTypeParameter q a, (fixTypeParameter_class cx q a d).2.trans hq⟩) hclass
  unfold classQuestions repairClass
  dsimp only
  rw [← each_snd] at hbounds hclass'
  rw [List.append_assoc]
  refine hbounds.trans inquisitive_chain ?_
  have hasked := Chain.asked_of_ask hbounds.related hx
  have hsome : (((p.fixTypeParameters cx info.typeParameters).2.ask [x.symbol]).2.forest.class? d).isSome := by
    rw [ask_forest]
    exact Option.isSome_iff_exists.mpr ⟨info, hclass'⟩
  show ChainAsks cx (p.fixTypeParameters cx info.typeParameters).2 _ _
  refine (asks_ask inquisitive_chain [x.symbol] _).trans inquisitive_chain ?_
  replace hasked : ∀ y, ((p.fixTypeParameters cx info.typeParameters).2.ask [x.symbol]).2.forest.declaration? d
    = some y → (((p.fixTypeParameters cx info.typeParameters).2.ask [x.symbol]).2.memo.find? y.symbol).isSome :=
    hasked
  generalize (p.fixTypeParameters cx info.typeParameters).2.ask [x.symbol] = answer at hasked hsome
  have hmembers : ∀ q : Pass, ChainAsks cx q [] (q.implementMembers cx d) := fun q =>
    have hcopies : Chain cx (q.fringe fun _ => True) q (q.implementMembers cx d) :=
      chain_implementWithin ⟨d, trivial, .refl⟩
    asks_nil hcopies.widen (memo_implementWithin cx _ q d)
  cases classProblem d x.symbol answer.1 (p.fixTypeParameters cx info.typeParameters).1 with
  | none => exact hmembers answer.2
  | some problem =>
    have hbreak : ChainAsks cx answer.2 (answer.2.breakQuestions cx d problem)
        (answer.2.breakClass cx d problem) := asks_breakClass hsome hasked
    have h := hbreak.trans inquisitive_chain (hmembers (answer.2.breakClass cx d problem))
    rwa [List.append_nil] at h

/-- **A visit of the first sweep asks what is listed**, and nothing else. -/
theorem asks_enterDeclaration (cx : Context) (v : Pass × Node) :
    ChainAsks cx v.1 (declarationQuestions cx v) (enterDeclaration cx v.1 v.2).1 := by
  obtain ⟨p, n⟩ := v
  have hchain := chain_visit cx p n
  cases n with
  | expression e => exact asks_nil .refl rfl
  | declaration d =>
    unfold declarationQuestions
    cases hx : p.forest.declaration? d with
    | none =>
      dsimp only
      rw [hx]
      refine asks_nil hchain ?_
      simp only [enterDeclaration, hx]
    | some x =>
      dsimp only
      rw [hx]
      dsimp only
      cases hc : x.content with
      | ofClass info =>
        simp only [enterDeclaration, hx, hc, below]
        exact asks_repairClass hx hc
      | ofFunction f =>
        have hfilter : ChainAsks cx p [] (p.filterOverridden d) :=
          asks_nil (chain_filterOverridden trivial) rfl
        refine (hfilter.trans inquisitive_chain (asks_fixSignature (p.filterOverridden d) d)).edited hchain ?_
        rw [enterDeclaration_function cx hx hc]
        cases functionProblem d x (p.signatureVerdict cx d) <;> rfl
      | ofProperty info =>
        refine asks_nil hchain ?_
        simp only [enterDeclaration, hx, hc, below]
        rfl
      | ofField | ofVariable =>
        simp only [enterDeclaration, hx, hc, below]
        exact asks_fixValue p d
      | ofParameter | ofTypeParameter | ofEnumEntry | ofInitializer =>
        refine asks_nil hchain ?_
        simp only [enterDeclaration, hx, hc, below]

/-- the visits of a walk, one after the other -/
theorem asks_run (hR : Inquisitive R) {enter : Pass → Node → Pass × List Node} {tops : List Node}
    {vs : List (Pass × Node)} {g : Pass × Node → List Question} (h : Run enter tops p vs q)
    (hstep : ∀ v, Asks R v.1 (g v) (enter v.1 v.2).1) : Asks R p (vs.flatMap g) q := by
  induction h with
  | start => exact asks_nil (hR.refl p) rfl
  | @visit vs t n _ _ ih =>
    rw [List.flatMap_append, List.flatMap_cons, List.flatMap_nil, List.append_nil]
    exact ih.trans hR (hstep (t, n))

theorem asks_repairDeclarations (cx : Context) (roots : List Root) (F : Forest) :
    ChainAsks cx (.start F) ((declarationVisits cx roots (.start F)).flatMap (declarationQuestions cx))
      (repairDeclarations cx roots (.start F)) :=
  asks_run inquisitive_chain (run_sweep cx F roots) (asks_enterDeclaration cx)

/-! ## the second sweep -/

theorem inquisitive_continues : Inquisitive Continues where
  refl := .refl
  trans := fun {p q r} h h' => by
    have hasked := h'.asked
    rw [h.forest] at hasked
    refine ⟨?_, h.asked.trans (Forest.asked_expressions _ hasked)⟩
    rw [h'.forest, h.forest]
  ask := fun p s => ⟨rfl, .symbol .refl s⟩

theorem asks_demand (e : ExpressionId) (p : Pass) (demand : Demand) :
    Asks Continues p (p.demandQuestions demand)
      { p with memo := (p.forest.demandProblem e p.memo demand).2 } := by
  cases demand with
  | type t => exact asks_ask inquisitive_continues t.mentioned p
  | symbol s =>
    simp only [demandQuestions, Forest.demandProblem, Forest.symbolProblem]
    split
    · exact asks_nil (.refl p) rfl
    · cases p.forest.owner? s with
      | none => exact asks_nil (.refl p) rfl
      | some d =>
        dsimp only
        cases p.forest.declaration? d with
        | none => exact asks_nil (.refl p) rfl
        | some x => exact asks_ask inquisitive_continues (p.forest.suspects s d x) p

theorem asks_demands (e : ExpressionId) : ∀ (demands : List Demand) (p : Pass),
    Asks Continues p (demandsQuestions e p demands)
      { p with memo := (p.forest.firstProblem e p.memo demands).2 } := by
  intro demands
  induction demands with
  | nil => exact fun p => asks_nil (.refl p) rfl
  | cons demand rest ih =>
    intro p
    have hfirst := asks_demand e p demand
    simp only [demandsQuestions, Forest.firstProblem]
    generalize p.forest.demandProblem e p.memo demand = found at hfirst
    obtain ⟨_ | problem, m⟩ := found
    · exact hfirst.trans inquisitive_continues (ih { p with memo := m })
    · rw [List.append_nil]
      exact hfirst

/-- **A visit of the second sweep asks what is listed**, and nothing else. -/
theorem asks_enterExpression (cx : Context) (file : Option FileId) (v : Pass × Node) :
    Asks Continues v.1 (expressionQuestions v) (enterExpression cx file v.1 v.2).1 := by
  obtain ⟨p, n⟩ := v
  cases n with
  | declaration d => exact asks_nil (.refl p) rfl
  | expression e =>
    have hfound : Asks Continues p (expressionQuestions (p, .expression e))
        { p with memo := (p.forest.expressionProblem p.memo e).2 } := by
      unfold expressionQuestions Forest.expressionProblem
      dsimp only
      cases p.forest.expression? e with
      | none => exact asks_nil (.refl p) rfl
      | some x => exact asks_demands e x.demands p
    simp only [enterExpression]
    split
    · exact hfound
    · rename_i problem _
      obtain ⟨es, hes⟩ := replaceExpression_forest cx file
        { p with memo := (p.forest.expressionProblem p.memo e).2 } e problem
      refine hfound.edited ⟨?_, hfound.related.asked⟩ rfl
      dsimp only
      rw [hes]

theorem asks_repairExpressions (cx : Context) : ∀ (roots : List Root) (p : Pass),
    Asks Continues p ((expressionVisits cx roots p).flatMap expressionQuestions)
      (repairExpressions cx roots p) := by
  intro roots
  induction roots with
  | nil => exact fun p => asks_nil (.refl p) rfl
  | cons root roots ih =>
    intro p
    have hrun : Run (enterExpression cx (rootFile p.forest root))
        ((p.forest.rootDeclarations root).map .declaration) p _ (p.sweepExpressions cx root) :=
      run_walkAll (sweepDepth p.forest) _ .start (List.Subset.refl _)
    have hroot := asks_run inquisitive_continues hrun (asks_enterExpression cx (rootFile p.forest root))
    have hall := hroot.trans inquisitive_continues (ih (p.sweepExpressions cx root))
    rw [← List.flatMap_append] at hall
    exact hall

/-- **The list of the questions is complete**: asked one after the other, from the empty memo on, they
make the memo at the end. -/
theorem inquiry_repair (cx : Context) (roots : List Root) (F : Forest) :
    Inquiry .empty (repairQuestions cx roots F) (repair cx roots F).memo :=
  (asks_repairDeclarations cx roots F).inquiry.append
    (asks_repairExpressions cx roots (repairDeclarations cx roots (.start F))).inquiry

end

end Pass

end LinkRepair
