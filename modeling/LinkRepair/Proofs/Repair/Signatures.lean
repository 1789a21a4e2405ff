import Mathlib.Data.List.Nodup
import LinkRepair.Forest.WellFormed
import LinkRepair.Proofs.Forest.Trees
import LinkRepair.Proofs.Repair.Kinds
import LinkRepair.Proofs.Repair.Sweep

/-!
# What the repair of a signature leaves behind

The types of a signature are looked at part by part.  A part is settled when its types mention
nothing broken any more, and the question about it has the answer that it had: a marker gives the
cause for which it was put there.

* `Forest.signatureTypes`   the types of a signature, in the order in which causes count;
* `Pass.Settled`            a part before and after, with the cause that was found in between;
* `each_settled`            parts that are settled one after the other are settled together;
* `settled_fixSignature`    a repaired signature is settled, and so is a repaired value.
-/

namespace LinkRepair

theorem TypeRef.blamed_eq_mentioned {t : TypeRef} (h : t.isMarker = false) :
    t.blamed = t.mentioned := by
  cases t with
  | named => rfl
  | marker => cases h

/-- what a type mentions is to blame for it -/
theorem TypeRef.mentioned_subset_blamed (t : TypeRef) : t.mentioned ⊆ t.blamed := by
  cases t with
  | named c as n => exact List.Subset.refl _
  | marker e u =>
    rw [TypeRef.mentioned_marker]
    exact List.nil_subset _

namespace Declaration

section
variable (x : Declaration)

theorem views_mapParameter (g : ParameterInfo → ParameterInfo) :
    (x.mapParameter g).function? = x.function?
      ∧ (x.mapParameter g).typeParameter? = x.typeParameter? := by
  obtain ⟨_, _, _, _, _, content⟩ := x
  cases content <;> exact ⟨rfl, rfl⟩

theorem views_mapFunction (g : FunctionInfo → FunctionInfo) :
    (x.mapFunction g).parameter? = x.parameter?
      ∧ (x.mapFunction g).typeParameter? = x.typeParameter? := by
  obtain ⟨_, _, _, _, _, content⟩ := x
  cases content <;> exact ⟨rfl, rfl⟩

theorem views_mapTypeParameter (g : TypeParameterInfo → TypeParameterInfo) :
    (x.mapTypeParameter g).parameter? = x.parameter?
      ∧ (x.mapTypeParameter g).function? = x.function? := by
  obtain ⟨_, _, _, _, _, content⟩ := x
  cases content <;> exact ⟨rfl, rfl⟩

end

end Declaration

namespace Forest

/-- the types of a part of the signature of `d` -/
def typesOf (F : Forest) (d : DeclarationId) : SignaturePart → List TypeRef
  | .parameter a => (F.parameter? a).toList.flatMap ParameterInfo.types
  | .returnType => (F.function? d).toList.map FunctionInfo.returnType
  | .typeParameter a => F.bounds a

/-- the types of the signature of `d` -/
def signatureTypes (F : Forest) (d : DeclarationId) : List TypeRef :=
  (F.function? d).toList.flatMap fun f => f.signature.flatMap (F.typesOf d)

/-- the type of a declared value -/
def valueTypes (F : Forest) (d : DeclarationId) : List TypeRef :=
  ((F.declaration? d).bind Declaration.valueType?).toList

theorem function?_eq_some {x : Declaration} {f : FunctionInfo} :
    x.function? = some f ↔ x.content = .ofFunction f := by
  unfold Declaration.function?
  cases x.content <;> simp

theorem parameter?_eq_some {x : Declaration} {p : ParameterInfo} :
    x.parameter? = some p ↔ x.content = .ofParameter p := by
  unfold Declaration.parameter?
  cases x.content <;> simp

section
variable {F G : Forest} {d a : DeclarationId}

theorem signatureTypes_of_function? {f : FunctionInfo} (h : F.function? d = some f) :
    F.signatureTypes d = f.signature.flatMap (F.typesOf d) := by
  simp [signatureTypes, h]

theorem signatureBlamed_eq : F.signatureBlamed d = (F.signatureTypes d).flatMap TypeRef.blamed := by
  unfold signatureBlamed signatureTypes
  cases hf : F.function? d with
  | none => rfl
  | some f =>
    have hpart : F.partTypes f = F.typesOf d := by
      funext part
      cases part with
      | parameter a => cases h : F.parameter? a <;> simp [partTypes, typesOf, h]
      | returnType => simp [partTypes, typesOf, hf]
      | typeParameter a => rfl
    simp [hpart]

theorem valueBlamed_eq : F.valueBlamed d = (F.valueTypes d).flatMap TypeRef.blamed := by
  unfold valueBlamed valueTypes
  cases (F.declaration? d).bind Declaration.valueType? <;> simp

/-- an edit that leaves what is looked at as it is -/
theorem bind_update {β : Type} {v : Declaration → Option β} {g : Declaration → Declaration}
    (h : ∀ x, v (g x) = v x) :
    ((F.updateDeclaration d g).declaration? a).bind v = (F.declaration? a).bind v := by
  rw [declaration?_updateDeclaration]
  split
  · cases F.declaration? a with
    | none => rfl
    | some x => exact h x
  · rfl

/-- an edit of another declaration -/
theorem declaration?_update_of_ne {g : Declaration → Declaration} (h : d ≠ a) :
    (F.updateDeclaration d g).declaration? a = F.declaration? a := by
  rw [declaration?_updateDeclaration, if_neg h]

theorem bounds_eq : F.bounds a = (((F.declaration? a).bind Declaration.typeParameter?).toList.flatMap
    TypeParameterInfo.bounds) := by
  unfold bounds
  cases (F.declaration? a).bind Declaration.typeParameter? <;> simp

/-- two forests with the same parameters, bounds, and outline of a function -/
theorem signatureTypes_congr (hp : ∀ a, G.parameter? a = F.parameter? a)
    (hb : ∀ a, G.bounds a = F.bounds a)
    (hf : (G.function? d).map (fun f => (f.signature, f.returnType))
      = (F.function? d).map fun f => (f.signature, f.returnType)) :
    G.signatureTypes d = F.signatureTypes d := by
  unfold signatureTypes
  cases hF : F.function? d with
  | none =>
    rw [hF, Option.map_none, Option.map_eq_none_iff] at hf
    rw [hf]
    rfl
  | some f =>
    rw [hF, Option.map_some, Option.map_eq_some_iff] at hf
    obtain ⟨g, hG, hfg⟩ := hf
    obtain ⟨hsig, hret⟩ := Prod.mk.inj hfg
    have htypes : G.typesOf d = F.typesOf d := by
      funext part
      cases part with
      | parameter a => simp [typesOf, hp]
      | returnType => simp [typesOf, hF, hG, hret]
      | typeParameter a => exact hb a
    simp [hG, hsig, htypes]

/-- an edit of what is not in a signature -/
theorem signatureTypes_update {g : Declaration → Declaration}
    (hp : ∀ x, (g x).parameter? = x.parameter?) (ht : ∀ x, (g x).typeParameter? = x.typeParameter?)
    (hf : ∀ x, (g x).function?.map (fun f => (f.signature, f.returnType))
      = x.function?.map fun f => (f.signature, f.returnType)) :
    (F.updateDeclaration a g).signatureTypes d = F.signatureTypes d := by
  refine signatureTypes_congr (fun b => bind_update hp) (fun b => ?_) ?_
  · rw [bounds_eq, bounds_eq, bind_update ht]
  · have := F.bind_update (d := a) (a := d)
      (v := fun x => x.function?.map fun f => (f.signature, f.returnType)) hf
    simpa [function?, Option.map_bind, Function.comp_def] using this

theorem signatureTypes_raiseIn (cx : Context) (p : Pass) (problem : Problem) :
    (p.raiseIn cx problem a).forest.signatureTypes d = p.forest.signatureTypes d := by
  obtain ⟨_, _, e⟩ := raiseIn_forest cx p problem a
  rw [e]
  refine signatureTypes_update (F := { p.forest with expressions := _ }) ?_ ?_ ?_ <;>
    (rintro ⟨_, _, _, _, _, content⟩; cases content <;> rfl)

theorem signatureTypes_filterOverridden (p : Pass) :
    (p.filterOverridden a).forest.signatureTypes d = p.forest.signatureTypes d := by
  refine signatureTypes_update ?_ ?_ ?_ <;>
    (rintro ⟨_, _, _, _, _, content⟩; cases content <;> rfl)

end

end Forest

/-- a function whose children are listed once has each part of its signature once -/
theorem FunctionInfo.signature_nodup {f : FunctionInfo}
    (h : (Content.ofFunction f).children.Nodup) : f.signature.Nodup := by
  have hslots : (f.typeParameters ++ f.dispatchReceiver.toList ++ f.extensionReceiver.toList
      ++ f.valueParameters).Nodup := List.Nodup.of_map _ (List.nodup_append.mp h).1
  have hparameter : Function.Injective SignaturePart.parameter := fun _ _ => SignaturePart.parameter.inj
  have htype : Function.Injective SignaturePart.typeParameter := fun _ _ =>
    SignaturePart.typeParameter.inj
  rw [List.append_assoc, List.append_assoc, List.nodup_append] at hslots
  obtain ⟨htypes, hrest, _⟩ := hslots
  obtain ⟨hdispatch, hvalues, hdisjoint⟩ := List.nodup_append.mp hrest
  rw [signature_eq, List.nodup_append, List.nodup_cons, List.nodup_append]
  refine ⟨hvalues.map hparameter, ⟨?_, htypes.map htype, hdispatch.map hparameter, ?_⟩, ?_⟩
  · simp
  · simp
  · intro part hpart part' hpart'
    obtain ⟨a, ha, rfl⟩ := List.mem_map.mp hpart
    rcases List.mem_cons.mp hpart' with rfl | hpart'
    · exact SignaturePart.noConfusion
    · rcases List.mem_append.mp hpart' with hpart' | hpart'
      · obtain ⟨b, _, rfl⟩ := List.mem_map.mp hpart'
        exact SignaturePart.noConfusion
      · obtain ⟨b, hb, rfl⟩ := List.mem_map.mp hpart'
        exact fun e => hdisjoint b hb a ha (hparameter e).symm

section
variable {F : Forest} {d a : DeclarationId} {x : Declaration} {f : FunctionInfo}

theorem Forest.Planted.signature_nodup (hF : F.Planted) (hd : F.Reached (.declaration d))
    (hx : F.declaration? d = some x) (hc : x.content = .ofFunction f) : f.signature.Nodup := by
  apply FunctionInfo.signature_nodup
  rw [← hc, ← Forest.children_declaration hx]
  exact hF.children_nodup _ hd

/-- the type parameters of a function own their symbols -/
theorem Forest.Planted.owned_typeParameter (hF : F.Planted) (hd : F.Reached (.declaration d))
    (hx : F.declaration? d = some x) (hc : x.content = .ofFunction f) (hfits : F.Fits x.content)
    (ha : .typeParameter a ∈ f.signature) : F.HasTypeParameter a ∧ F.symbolOwner? a = some a := by
  rw [hc] at hfits
  have hchild : F.Child (.declaration d) (.declaration a) :=
    Forest.child_of_content hx hc (FunctionInfo.mem_children_of_mem_signature (.inr ha))
  exact ⟨hfits.1 a (FunctionInfo.typeParameter_mem_signature.mp ha), hF.owner a (hd.child hchild)⟩

end

namespace Pass

/-! ## settled types -/

def Answers (p : Pass) (l : List SymbolId) (v : Verdict) : Prop := p.forest.Answers p.memo l v

/-- the types mention nothing that is broken -/
def Clean (p : Pass) (types : List TypeRef) : Prop :=
  ∀ t ∈ types, ∀ s ∈ t.mentioned, ¬ p.forest.Tainted p.memo s

structure Settled (p : Pass) (before after : List TypeRef) (v : Verdict) : Prop where
  clean : p.Clean after
  answers : (∀ t ∈ before, t.isMarker = false) → p.Answers (after.flatMap TypeRef.blamed) v

section
variable {cx : Context} {c : Scope} {p q : Pass} {l : List SymbolId} {v v' : Verdict}
  {before after before' after' : List TypeRef}

theorem Answers.chain (h : p.Answers l v) (hp : p.Sane) (hc : Chain cx c p q) : q.Answers l v :=
  Forest.Answers.mono h hc.frames.memo fun s hs ht => hs ((hc.sane hp).2 s ht)

theorem Clean.chain (h : p.Clean after) (hp : p.Sane) (hc : Chain cx c p q) : q.Clean after :=
  fun t ht s hs hq => h t ht s hs ((hc.sane hp).2 s hq)

theorem Settled.chain (h : p.Settled before after v) (hp : p.Sane) (hc : Chain cx c p q) :
    q.Settled before after v :=
  ⟨h.clean.chain hp hc, fun hm => (h.answers hm).chain hp hc⟩

theorem settled_nil (p : Pass) : p.Settled [] [] none :=
  ⟨fun _ ht => absurd ht List.not_mem_nil, fun _ => Forest.answers_nil⟩

theorem Settled.append (h : p.Settled before after v) (h' : p.Settled before' after' v') :
    p.Settled (before ++ before') (after ++ after') (v.or v') where
  clean := fun t ht => (List.mem_append.mp ht).elim (h.clean t) (h'.clean t)
  answers := fun hm => by
    rw [List.flatMap_append]
    exact Forest.Answers.append (h.answers fun t ht => hm t (List.mem_append_left _ ht))
      (h'.answers fun t ht => hm t (List.mem_append_right _ ht))

theorem flatMap_blamed_eq (h : ∀ t ∈ before, t.isMarker = false) :
    before.flatMap TypeRef.blamed = before.flatMap TypeRef.mentioned :=
  List.flatMap_congr fun t ht => TypeRef.blamed_eq_mentioned (h t ht)

/-- types that are not broken stay -/
theorem settled_of_untainted (h : ∀ t ∈ before, ∀ s ∈ t.mentioned, ¬ p.forest.Tainted p.memo s) :
    p.Settled before before none where
  clean := h
  answers := fun hm s hs => by
    rw [flatMap_blamed_eq hm] at hs
    obtain ⟨t, ht, hs⟩ := List.mem_flatMap.mp hs
    exact h t ht s hs

/-- markers give the cause for which they are put there -/
theorem settled_marker {k : Cause} (hp : p.Sane) (hk : p.memo.Blames l k) {t : TypeRef}
    {ts : List TypeRef} (hts : ∀ u ∈ t :: ts, u = cx.intrinsics.markerType k.symbol) :
    p.Settled before (t :: ts) (some k) where
  clean := fun u hu s hs => by
    rw [hts u hu, Intrinsics.markerType, TypeRef.mentioned_marker] at hs
    exact absurd hs List.not_mem_nil
  answers := fun _ => by
    obtain ⟨s, _, hs⟩ := hk
    rw [hts t List.mem_cons_self, List.flatMap_cons, Intrinsics.markerType, TypeRef.blamed_marker]
    exact Forest.answers_cons_some (hp.closed s k hs)

/-- after a question that finds no cause, nothing that it asked about is tainted -/
theorem untainted_of_ask (hp : p.Sane) (h : (p.ask l).1 = none) :
    ∀ s ∈ l, ¬ (p.ask l).2.forest.Tainted (p.ask l).2.memo s := by
  intro s hs
  have ha := Forest.asked_exploreFirst p.forest l p.memo
  show ¬ p.forest.Tainted (p.forest.exploreFirst p.memo l).2 s
  rw [ha.tainted_iff hp.sound]
  exact (Forest.exploreFirst_fst_eq_none_iff hp.sound).mp h s hs

/-- a question, and after it markers for the cause that was found -/
theorem settled_of_ask (cx : Context) (hp : p.Sane) {t : Forest → List TypeRef} {g : Cause → Forest → Forest}
    {r : Verdict × Pass} (hr : r.2.Sane) (hnone : ∀ q, p.ask l = (none, q) → r = (none, q))
    (hsome : ∀ k q, p.ask l = (some k, q) → r = (some k, q.edit (g k)))
    (hl : (∀ s ∈ l, ¬ p.forest.Tainted p.memo s) → p.Clean (t p.forest))
    (hg : ∀ k, ∃ u us, t (g k p.forest) = u :: us
      ∧ ∀ w ∈ u :: us, w = cx.intrinsics.markerType k.symbol) :
    r.2.Settled (t p.forest) (t r.2.forest) r.1 := by
  have hask : Chain cx Scope.everything p (p.ask l).2 := chain_ask l
  have hf := ask_forest p l
  have hb := p.blames_of_ask l
  have hun : (p.ask l).1 = none → p.Clean (t p.forest) := fun h =>
    hl ((Forest.exploreFirst_fst_eq_none_iff hp.sound).mp h)
  generalize p.ask l = answer at hask hf hb hun hnone hsome
  obtain ⟨_ | k, q⟩ := answer
  · obtain rfl := hnone q rfl
    replace hf : q.forest = p.forest := hf
    rw [hf]
    exact settled_of_untainted ((hun rfl).chain hp hask)
  · obtain rfl := hsome k q rfl
    replace hf : q.forest = p.forest := hf
    obtain ⟨_, _, e, hts⟩ := hg k
    show (q.edit (g k)).Settled _ (t (g k q.forest)) (some k)
    rw [hf, e]
    exact settled_marker hr (hb k rfl) hts

/-! ## one part -/

theorem clean_of_flatMap {types : List TypeRef}
    (h : ∀ s ∈ types.flatMap TypeRef.mentioned, ¬ p.forest.Tainted p.memo s) : p.Clean types :=
  fun t ht s hs => h s (List.mem_flatMap.mpr ⟨t, ht, hs⟩)

theorem parameter?_mapParameter (g : ParameterInfo → ParameterInfo) (x : Declaration) :
    (x.mapParameter g).parameter? = x.parameter?.map g := by
  obtain ⟨_, _, _, _, _, content⟩ := x
  cases content <;> rfl

theorem settled_fixParameter (hp : p.Sane) (d a : DeclarationId) :
    (p.fixParameter cx a).2.Settled (p.forest.typesOf d (.parameter a))
      ((p.fixParameter cx a).2.forest.typesOf d (.parameter a)) (p.fixParameter cx a).1 := by
  have hchain : Chain cx Scope.everything p (p.fixParameter cx a).2 :=
    (chain_fixParameter cx p trivial).1
  cases hinfo : p.forest.parameter? a with
  | none =>
    have hr : p.fixParameter cx a = (none, p) := by simp [fixParameter, hinfo]
    rw [hr]
    simp only [Forest.typesOf, hinfo, Option.toList_none, List.flatMap_nil]
    exact settled_nil p
  | some info =>
    have htypes : p.forest.typesOf d (.parameter a) = info.types := by simp [Forest.typesOf, hinfo]
    refine settled_of_ask cx (l := info.types.flatMap TypeRef.mentioned)
      (g := fun k F => F.updateDeclaration a <| Declaration.mapParameter fun q =>
        q.broken (cx.intrinsics.markerType k.symbol)) (t := fun F => F.typesOf d (.parameter a))
      hp (hchain.sane hp).1
      (fun q h => by simp only [fixParameter, hinfo, h])
      (fun k q h => by simp only [fixParameter, hinfo, h]) (fun h => ?_) fun k => ?_
    · rw [htypes]
      exact clean_of_flatMap h
    · obtain ⟨x, hx, hxp⟩ := Option.bind_eq_some_iff.mp hinfo
      refine ⟨cx.intrinsics.markerType k.symbol,
        (info.element.map fun _ => cx.intrinsics.markerType k.symbol).toList, ?_, fun u hu => ?_⟩
      · show ((Forest.parameter? (p.forest.updateDeclaration a _) a).toList.flatMap _) = _
        rw [Forest.parameter?, Forest.declaration?_updateDeclaration, if_pos rfl, hx, Option.map_some,
          Option.bind_some, parameter?_mapParameter, hxp]
        exact List.append_nil _
      · cases he : info.element <;> simpa [he] using hu

theorem exists_of_returnType {d : DeclarationId} {type : TypeRef}
    (h : p.forest.typesOf d .returnType = [type]) :
    ∃ f, p.forest.function? d = some f ∧ f.returnType = type := by
  unfold Forest.typesOf at h
  cases hf : p.forest.function? d with
  | none => simp [hf] at h
  | some f => exact ⟨f, rfl, by simpa [hf] using h⟩

theorem settled_fixReturnType (hp : p.Sane) {d : DeclarationId} {type : TypeRef}
    (hd : p.forest.typesOf d .returnType = [type]) :
    (p.fixReturnType cx d type).2.Settled (p.forest.typesOf d .returnType)
      ((p.fixReturnType cx d type).2.forest.typesOf d .returnType) (p.fixReturnType cx d type).1 := by
  obtain ⟨f, hf, rfl⟩ := exists_of_returnType hd
  have hchain : Chain cx Scope.everything p (p.fixReturnType cx d f.returnType).2 :=
    chain_fixReturnType trivial hf
  refine settled_of_ask cx (l := f.returnType.mentioned)
    (g := fun k F => F.updateDeclaration d <| Declaration.mapFunction fun f =>
      { f with returnType := cx.intrinsics.markerType k.symbol })
    (t := fun F => F.typesOf d .returnType) hp (hchain.sane hp).1
    (fun q h => by simp only [fixReturnType, h]) (fun k q h => by simp only [fixReturnType, h])
    (fun h => ?_) fun k => ?_
  · rw [hd]
    intro t ht
    rw [List.mem_singleton.mp ht]
    exact h
  · obtain ⟨x, hx, hxf⟩ := Option.bind_eq_some_iff.mp hf
    refine ⟨_, [], ?_, fun u hu => List.mem_singleton.mp hu⟩
    show ((Forest.function? (p.forest.updateDeclaration d _) d).toList.map _) = _
    rw [Forest.function?, Forest.declaration?_updateDeclaration, if_pos rfl, hx, Option.map_some,
      Option.bind_some, Declaration.function?_mapFunction, hxf]
    rfl

/-- what a type parameter is not tainted by, it does not mention in its bounds -/
theorem clean_bounds {a : DeclarationId} {x : Declaration} (hx : p.forest.declaration? a = some x)
    (ho : p.forest.owner? x.symbol = some a) (ht : ¬ p.forest.Tainted p.memo x.symbol) :
    p.Clean (p.forest.bounds a) := by
  intro t htb s hs htaint
  refine ht (htaint.step ?_)
  rw [Forest.bounds_eq, hx, Option.bind_some] at htb
  obtain ⟨info, hinfo, htb⟩ := List.mem_flatMap.mp htb
  have hdef := Forest.definition?_of_owner? ho hx
  have horigin : x.origin ≠ .missing := fun h =>
    ht (Forest.Spoiled.tainted (.inl (.standIn hdef h)))
  rw [Forest.standing_typeParameter hdef horigin (Option.mem_toList.mp hinfo)]
  exact List.mem_flatMap.mpr ⟨t, htb, hs⟩

variable (cx) in
theorem settled_fixTypeParameter (hp : p.Sane) (d : DeclarationId) {a : DeclarationId}
    (ha : p.forest.HasTypeParameter a) (ho : p.forest.symbolOwner? a = some a) :
    (p.fixTypeParameter cx a).2.Settled (p.forest.typesOf d (.typeParameter a))
      ((p.fixTypeParameter cx a).2.forest.typesOf d (.typeParameter a)) (p.fixTypeParameter cx a).1 := by
  have hchain : Chain cx Scope.everything p (p.fixTypeParameter cx a).2 := chain_fixTypeParameter trivial
  obtain ⟨x, info, hx, hc⟩ := ha
  have ho' : p.forest.owner? x.symbol = some a := by
    simpa [Forest.symbolOwner?, hx] using ho
  refine settled_of_ask cx (l := [x.symbol])
    (g := fun k F => F.updateDeclaration a <| Declaration.mapTypeParameter fun _ =>
      ⟨[cx.intrinsics.markerType k.symbol]⟩)
    (t := fun F => F.typesOf d (.typeParameter a)) hp (hchain.sane hp).1
    (fun q h => by simp only [fixTypeParameter, hx, h])
    (fun k q h => by simp only [fixTypeParameter, hx, h])
    (fun h => clean_bounds hx ho' (h x.symbol (List.mem_singleton_self _))) fun k => ?_
  refine ⟨_, [], ?_, fun u hu => List.mem_singleton.mp hu⟩
  show Forest.bounds (p.forest.updateDeclaration a _) a = _
  rw [Forest.bounds_eq, Forest.declaration?_updateDeclaration, if_pos rfl, hx, Option.map_some,
    Option.bind_some, Declaration.mapTypeParameter, hc]
  rfl

/-! ## all parts -/

/-- **Things that are settled one after the other are settled together**, if settling one leaves the
types of the others as they are. -/
theorem each_settled {α : Type} {f : Pass → α → Verdict × Pass} {t : Forest → α → List TypeRef}
    {P : Pass → α → Prop}
    (hstep : ∀ q a, q.Sane → P q a → Chain cx c q (f q a).2
      ∧ (f q a).2.Settled (t q.forest a) (t (f q a).2.forest a) (f q a).1)
    (hother : ∀ q a b, q.Sane → a ≠ b → P q a → t (f q a).2.forest b = t q.forest b
      ∧ (P q b → P (f q a).2 b)) :
    ∀ {l : List α} {q : Pass}, l.Nodup → q.Sane → (∀ a ∈ l, P q a) →
      Chain cx c q (each f q l).2
        ∧ (each f q l).2.Settled (l.flatMap (t q.forest)) (l.flatMap (t (each f q l).2.forest))
          (each f q l).1
        ∧ ∀ b, b ∉ l → t (each f q l).2.forest b = t q.forest b := by
  intro l
  induction l with
  | nil => intro q _ _ _; exact ⟨.refl, settled_nil q, fun _ _ => rfl⟩
  | cons a l ih =>
    intro q hnd hq hP
    obtain ⟨ha, hnd⟩ := List.nodup_cons.mp hnd
    have hPa := hP a List.mem_cons_self
    obtain ⟨hchain, hsettled⟩ := hstep q a hq hPa
    have hne : ∀ b ∈ l, a ≠ b := by
      rintro b hb rfl
      exact ha hb
    obtain ⟨hchain', hsettled', hkept⟩ := ih hnd (hchain.sane hq).1 fun b hb =>
      (hother q a b hq (hne b hb) hPa).2 (hP b (List.mem_cons_of_mem _ hb))
    have hbefore : l.flatMap (t (f q a).2.forest) = l.flatMap (t q.forest) :=
      List.flatMap_congr fun b hb => (hother q a b hq (hne b hb) hPa).1
    rw [each_cons]
    refine ⟨hchain.trans hchain', ?_, fun b hb => ?_⟩
    · have hfirst := hsettled.chain (hchain.sane hq).1 hchain'
      rw [← hkept a ha] at hfirst
      rw [hbefore] at hsettled'
      exact hfirst.append hsettled'
    · rw [List.mem_cons, not_or] at hb
      exact (hkept b hb.2).trans (hother q a b hq (Ne.symm hb.1) hPa).1

/-- a part that can be settled -/
def Ready (d : DeclarationId) (type : TypeRef) (p : Pass) : SignaturePart → Prop
  | .parameter _ => True
  | .returnType => p.forest.typesOf d .returnType = [type]
  | .typeParameter a => p.forest.HasTypeParameter a ∧ p.forest.symbolOwner? a = some a

theorem Frames.symbolOwner? {I : Intrinsics} {T K : DeclarationId → Prop} (h : Frames I T K p q)
    {a : DeclarationId} (ha : p.forest.symbolOwner? a = some a) :
    q.forest.symbolOwner? a = some a := by
  obtain ⟨x, hx, ho⟩ := Option.bind_eq_some_iff.mp ha
  obtain ⟨y, hy, hb, _⟩ := h.declaration? a x hx
  exact Option.bind_eq_some_iff.mpr ⟨y, hy, by rw [hb.symbol]; exact h.owner? ho⟩

/-- the edits that settle a part -/
theorem fixParameter_forest (cx : Context) (p : Pass) (a : DeclarationId) :
    (p.fixParameter cx a).2.forest = p.forest
      ∨ ∃ g, (p.fixParameter cx a).2.forest
        = p.forest.updateDeclaration a (Declaration.mapParameter g) := by
  unfold fixParameter
  split
  · exact .inl rfl
  · rename_i info _
    have hf := ask_forest p (info.types.flatMap TypeRef.mentioned)
    generalize p.ask (info.types.flatMap TypeRef.mentioned) = answer at hf
    obtain ⟨_ | k, q⟩ := answer
    · exact .inl hf
    · refine .inr ⟨fun q => q.broken (cx.intrinsics.markerType k.symbol), ?_⟩
      rw [← show q.forest = p.forest from hf]
      rfl

theorem fixReturnType_forest (cx : Context) (p : Pass) (d : DeclarationId) (type : TypeRef) :
    (p.fixReturnType cx d type).2.forest = p.forest
      ∨ ∃ u, (p.fixReturnType cx d type).2.forest = p.forest.updateDeclaration d
        (Declaration.mapFunction fun f => { f with returnType := u }) := by
  unfold fixReturnType
  have hf := ask_forest p type.mentioned
  generalize p.ask type.mentioned = answer at hf
  obtain ⟨_ | k, q⟩ := answer
  · exact .inl hf
  · refine .inr ⟨cx.intrinsics.markerType k.symbol, ?_⟩
    rw [← show q.forest = p.forest from hf]
    rfl

theorem fixTypeParameter_forest (cx : Context) (p : Pass) (a : DeclarationId) :
    (p.fixTypeParameter cx a).2.forest = p.forest
      ∨ ∃ g, (p.fixTypeParameter cx a).2.forest
        = p.forest.updateDeclaration a (Declaration.mapTypeParameter g) := by
  unfold fixTypeParameter
  split
  · exact .inl rfl
  · rename_i x _
    have hf := ask_forest p [x.symbol]
    generalize p.ask [x.symbol] = answer at hf
    obtain ⟨_ | k, q⟩ := answer
    · exact .inl hf
    · refine .inr ⟨fun _ => ⟨[cx.intrinsics.markerType k.symbol]⟩, ?_⟩
      rw [← show q.forest = p.forest from hf]
      rfl

/-- settling a part leaves the other parts as they are -/
theorem typesOf_fixPart {d : DeclarationId} {type : TypeRef} {part part' : SignaturePart}
    (h : part ≠ part') : (fixPart cx d type p part).2.forest.typesOf d part'
      = p.forest.typesOf d part' := by
  cases part with
  | parameter a =>
    rcases fixParameter_forest cx p a with e | ⟨g, e⟩ <;>
      (show (p.fixParameter cx a).2.forest.typesOf d part' = _; rw [e])
    cases part' with
    | parameter b =>
      have hne : a ≠ b := by
        rintro rfl
        exact h rfl
      simp only [Forest.typesOf, Forest.parameter?, Forest.declaration?_update_of_ne hne]
    | returnType =>
      simp only [Forest.typesOf, Forest.function?, Forest.bind_update (v := Declaration.function?)
        fun x => (x.views_mapParameter g).1]
    | typeParameter b =>
      simp only [Forest.typesOf, Forest.bounds_eq, Forest.bind_update (v := Declaration.typeParameter?)
        fun x => (x.views_mapParameter g).2]
  | returnType =>
    rcases fixReturnType_forest cx p d type with e | ⟨u, e⟩ <;>
      (show (p.fixReturnType cx d type).2.forest.typesOf d part' = _; rw [e])
    cases part' with
    | parameter b =>
      simp only [Forest.typesOf, Forest.parameter?, Forest.bind_update (v := Declaration.parameter?)
        fun x => (x.views_mapFunction _).1]
    | returnType => exact absurd rfl h
    | typeParameter b =>
      simp only [Forest.typesOf, Forest.bounds_eq, Forest.bind_update (v := Declaration.typeParameter?)
        fun x => (x.views_mapFunction _).2]
  | typeParameter a =>
    rcases fixTypeParameter_forest cx p a with e | ⟨g, e⟩ <;>
      (show (p.fixTypeParameter cx a).2.forest.typesOf d part' = _; rw [e])
    cases part' with
    | parameter b =>
      simp only [Forest.typesOf, Forest.parameter?, Forest.bind_update (v := Declaration.parameter?)
        fun x => (x.views_mapTypeParameter g).1]
    | returnType =>
      simp only [Forest.typesOf, Forest.function?, Forest.bind_update (v := Declaration.function?)
        fun x => (x.views_mapTypeParameter g).2]
    | typeParameter b =>
      have hne : a ≠ b := by
        rintro rfl
        exact h rfl
      simp only [Forest.typesOf, Forest.bounds_eq, Forest.declaration?_update_of_ne hne]

/-- **One part.** -/
theorem settled_fixPart (hp : p.Sane) {d : DeclarationId} {type : TypeRef} {part : SignaturePart}
    (h : Ready d type p part) : Chain cx Scope.everything p (fixPart cx d type p part).2
      ∧ (fixPart cx d type p part).2.Settled (p.forest.typesOf d part)
        ((fixPart cx d type p part).2.forest.typesOf d part) (fixPart cx d type p part).1 := by
  cases part with
  | parameter a => exact ⟨(chain_fixParameter cx p trivial).1, settled_fixParameter hp d a⟩
  | returnType =>
    obtain ⟨f, hf, rfl⟩ := exists_of_returnType h
    exact ⟨chain_fixReturnType trivial hf, settled_fixReturnType hp h⟩
  | typeParameter a =>
    exact ⟨chain_fixTypeParameter trivial, settled_fixTypeParameter cx hp d h.1 h.2⟩

theorem Ready.chain {d : DeclarationId} {type : TypeRef} {part : SignaturePart}
    (h : Ready d type p part) (hc : Chain cx c p q)
    (ht : q.forest.typesOf d part = p.forest.typesOf d part) : Ready d type q part := by
  cases part with
  | parameter => trivial
  | returnType => exact ht.trans h
  | typeParameter b => exact ⟨hc.frames.keeps.typeParameter b h.1, hc.frames.symbolOwner? h.2⟩

/-! ## signatures and values -/

/-- a function keeps the parts of its signature -/
theorem exists_function?_chain {d : DeclarationId} {f : FunctionInfo}
    (hd : p.forest.function? d = some f) (hc : Chain cx c p q) :
    ∃ f', q.forest.function? d = some f' ∧ f'.signature = f.signature := by
  obtain ⟨x, hx, hxf⟩ := Option.bind_eq_some_iff.mp hd
  obtain ⟨y, hy, hb, _⟩ := hc.frames.declaration? d x hx
  have hcontent := hb.content
  rw [Forest.function?_eq_some.mp hxf] at hcontent
  generalize hyc : y.content = content at hcontent
  cases hcontent with
  | ofFunction =>
    exact ⟨_, Option.bind_eq_some_iff.mpr ⟨y, hy, Forest.function?_eq_some.mpr hyc⟩, rfl⟩

variable (cx) in
/-- **A repaired signature is settled.** -/
theorem settled_fixSignature (hp : p.Sane) {d : DeclarationId} {f : FunctionInfo}
    (hd : p.forest.function? d = some f) (hnd : f.signature.Nodup)
    (ht : ∀ a, .typeParameter a ∈ f.signature →
      p.forest.HasTypeParameter a ∧ p.forest.symbolOwner? a = some a) :
    Chain cx Scope.everything p (p.fixSignature cx d).2
      ∧ (p.fixSignature cx d).2.Settled (p.forest.signatureTypes d)
        ((p.fixSignature cx d).2.forest.signatureTypes d) (p.fixSignature cx d).1 := by
  have hfix : p.fixSignature cx d = each (fixPart cx d f.returnType) p f.signature := by
    simp only [fixSignature, hd]
  rw [hfix]
  obtain ⟨hchain, hsettled, _⟩ := each_settled (t := fun F => F.typesOf d)
    (P := Ready d f.returnType) (fun q part hq hready => settled_fixPart hq hready)
    (fun q part part' hq hne hready => ⟨typesOf_fixPart hne, fun hready' =>
      hready'.chain (settled_fixPart hq hready).1 (typesOf_fixPart hne)⟩)
    hnd hp fun part hpart => by
      cases part with
      | parameter => trivial
      | returnType => show (p.forest.typesOf d .returnType) = _; simp [Forest.typesOf, hd]
      | typeParameter a => exact ht a hpart
  obtain ⟨f', hf', hsig⟩ := exists_function?_chain hd hchain
  refine ⟨hchain, ?_⟩
  rw [Forest.signatureTypes_of_function? hd, Forest.signatureTypes_of_function? hf', hsig]
  exact hsettled

/-- the type of a declaration that is not a parameter -/
theorem valueType?_breakValue {x : Declaration} {t : TypeRef} (h : x.valueType?.isSome)
    (hp : x.parameter? = none) : (x.breakValue t).valueType? = some t := by
  obtain ⟨_, _, _, _, _, content⟩ := x
  cases content with
  | ofField => rfl
  | ofVariable => rfl
  | ofParameter => cases hp
  | _ => cases h

variable (cx) in
/-- **A repaired value is settled.** -/
theorem settled_fixValue (hp : p.Sane) {d : DeclarationId} (hd : p.forest.parameter? d = none) :
    Chain cx Scope.everything p (p.fixValue cx d).2
      ∧ (p.fixValue cx d).2.Settled (p.forest.valueTypes d) ((p.fixValue cx d).2.forest.valueTypes d)
        (p.fixValue cx d).1 := by
  have hchain : Chain cx Scope.everything p (p.fixValue cx d).2 := chain_fixValue trivial
  refine ⟨hchain, ?_⟩
  cases htype : (p.forest.declaration? d).bind Declaration.valueType? with
  | none =>
    have hr : p.fixValue cx d = (none, p) := by simp only [fixValue, htype]
    rw [hr]
    simp only [Forest.valueTypes, htype, Option.toList_none]
    exact settled_nil p
  | some type =>
    have htypes : p.forest.valueTypes d = [type] := by simp [Forest.valueTypes, htype]
    refine settled_of_ask cx (l := type.mentioned)
      (g := fun k F => F.updateDeclaration d <| Declaration.breakValue
        (cx.intrinsics.markerType k.symbol)) (t := fun F => F.valueTypes d) hp (hchain.sane hp).1
      (fun q h => by simp only [fixValue, htype, h]) (fun k q h => by simp only [fixValue, htype, h])
      (fun h => ?_) fun k => ?_
    · rw [htypes]
      intro t ht
      rw [List.mem_singleton.mp ht]
      exact h
    · obtain ⟨x, hx, hxt⟩ := Option.bind_eq_some_iff.mp htype
      refine ⟨_, [], ?_, fun u hu => List.mem_singleton.mp hu⟩
      have hxp : x.parameter? = none := by
        simpa [Forest.parameter?, hx] using hd
      show ((Forest.declaration? (p.forest.updateDeclaration d _) d).bind _).toList = _
      rw [Forest.declaration?_updateDeclaration, if_pos rfl, hx, Option.map_some, Option.bind_some,
        valueType?_breakValue (by rw [hxt]; rfl) hxp]
      rfl

/-! ## what a repaired signature keeps -/

theorem each_invariant {α : Type} {f : Pass → α → Verdict × Pass} {P : Pass → Prop}
    (h : ∀ q a, P q → P (f q a).2) : ∀ {l : List α} {q : Pass}, P q → P (each f q l).2 := by
  intro l
  induction l with
  | nil => exact fun hq => hq
  | cons a l ih => exact fun hq => ih (h _ a hq)

/-- what a pass keeps beside the forest and the answers: its repairs and what it has examined -/
def account (p : Pass) : List Repair × List DeclarationId := (p.repairs, p.examined)

theorem account_ask (q : Pass) (symbols : List SymbolId) : (q.ask symbols).2.account = q.account := rfl

theorem account_fixPart (d : DeclarationId) (type : TypeRef) (q : Pass) (part : SignaturePart) :
    (fixPart cx d type q part).2.account = q.account := by
  cases part with
  | parameter a =>
    show (q.fixParameter cx a).2.account = _
    unfold fixParameter
    split
    · rfl
    · rename_i info _
      have hr := account_ask q (info.types.flatMap TypeRef.mentioned)
      generalize q.ask (info.types.flatMap TypeRef.mentioned) = answer at hr ⊢
      obtain ⟨_ | k, r⟩ := answer <;> exact hr
  | returnType =>
    show (q.fixReturnType cx d type).2.account = _
    unfold fixReturnType
    have hr := account_ask q type.mentioned
    generalize q.ask type.mentioned = answer at hr ⊢
    obtain ⟨_ | k, r⟩ := answer <;> exact hr
  | typeParameter a =>
    show (q.fixTypeParameter cx a).2.account = _
    unfold fixTypeParameter
    split
    · rfl
    · rename_i x _
      have hr := account_ask q [x.symbol]
      generalize q.ask [x.symbol] = answer at hr ⊢
      obtain ⟨_ | k, r⟩ := answer <;> exact hr

theorem repairs_fixPart (d : DeclarationId) (type : TypeRef) (q : Pass) (part : SignaturePart) :
    (fixPart cx d type q part).2.repairs = q.repairs :=
  congrArg Prod.fst (account_fixPart d type q part)

/-- nothing is complained about or examined while a signature is repaired -/
theorem account_fixSignature (p : Pass) (d : DeclarationId) :
    (p.fixSignature cx d).2.account = p.account := by
  unfold fixSignature
  split
  · rfl
  · rename_i f _
    exact each_invariant (P := fun q => q.account = p.account)
      (fun q part hq => (account_fixPart d f.returnType q part).trans hq) rfl

theorem repairs_fixSignature (p : Pass) (d : DeclarationId) :
    (p.fixSignature cx d).2.repairs = p.repairs := congrArg Prod.fst (account_fixSignature p d)

/-- the body of a function -/
def bodyOf (p : Pass) (d : DeclarationId) : Option (List Statement) :=
  (p.forest.function? d).bind FunctionInfo.body

theorem bodyOf_update {g : Declaration → Declaration} {a d : DeclarationId}
    (hf : q.forest = p.forest.updateDeclaration a g)
    (hg : ∀ x, (g x).function?.bind FunctionInfo.body = x.function?.bind FunctionInfo.body) :
    q.bodyOf d = p.bodyOf d := by
  have := p.forest.bind_update (d := a) (a := d) (v := fun x => x.function?.bind FunctionInfo.body) hg
  unfold bodyOf Forest.function?
  rw [hf, Option.bind_assoc, Option.bind_assoc]
  exact this

/-- no body changes while a signature is repaired -/
theorem bodyOf_fixSignature (p : Pass) (d a : DeclarationId) :
    (p.fixSignature cx d).2.bodyOf a = p.bodyOf a := by
  unfold fixSignature
  split
  · rfl
  · rename_i f _
    refine each_invariant (P := fun q => q.bodyOf a = p.bodyOf a) (fun q part hq => ?_) rfl
    refine Eq.trans ?_ hq
    cases part with
    | parameter b =>
      show (q.fixParameter cx b).2.bodyOf a = _
      rcases fixParameter_forest cx q b with e | ⟨g, e⟩
      · unfold bodyOf
        rw [e]
      · apply bodyOf_update e
        intro x
        rw [(x.views_mapParameter g).1]
    | returnType =>
      show (q.fixReturnType cx d f.returnType).2.bodyOf a = _
      rcases fixReturnType_forest cx q d f.returnType with e | ⟨u, e⟩
      · unfold bodyOf
        rw [e]
      · apply bodyOf_update e
        intro x
        obtain ⟨_, _, _, _, _, content⟩ := x
        cases content <;> rfl
    | typeParameter b =>
      show (q.fixTypeParameter cx b).2.bodyOf a = _
      rcases fixTypeParameter_forest cx q b with e | ⟨g, e⟩
      · unfold bodyOf
        rw [e]
      · apply bodyOf_update e
        intro x
        rw [(x.views_mapTypeParameter g).2]

end

end Pass

end LinkRepair
