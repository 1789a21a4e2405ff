import LinkRepair.Proofs.Forest.Building
import LinkRepair.Proofs.Repair.Lacks
import LinkRepair.Proofs.Repair.Offshoots
import LinkRepair.Proofs.Repair.Renamings

/-!
# Copied members are faithful

The copy of a function in a class has the signature of the function, with type parameters of its own.
Every parameter of the copy is new and has a new symbol, and the types of the copy are those of the
function in terms of these symbols.

* `Forest.IsNew`             a new declaration with a new symbol of its own;
* `Forest.Sown`              some declarations are new, and all that was there is kept;
* `sown_copyTypeParameters`, `sown_copyParameters`   what is copied is sown;
* `Forest.CopiesTypeParameter`, `Forest.CopiesParameter`   faithful copies of parameters;
* `Forest.CopiesSignature`, `Forest.CopiesMember`          and of a function;
* `Forest.Joins`             a new member of a class;
* `copiesSignature_of_joins` the parameters of a new member;
* `copyMember_faithful`      the copy of a function in a class.
-/

namespace LinkRepair

theorem Declaration.mapTypeParameter_symbol (x : Declaration)
    (g : TypeParameterInfo → TypeParameterInfo) : (x.mapTypeParameter g).symbol = x.symbol := by
  unfold mapTypeParameter
  split <;> rfl

/-- what would be found again was not there -/
theorem eq_none_of_found {α β : Type} {o : Option α} {p : Option β} (hp : p = none)
    (h : ∀ x, o = some x → p.isSome) : o = none := by
  cases ho : o with
  | none => rfl
  | some x => exact absurd (h x ho) (by simp [hp])

/-- lists that are related through two others -/
theorem forall₂_through {α β γ δ : Type} {R : α → β → Prop} {S : β → γ → Prop} {T : δ → γ → Prop}
    {U : α → δ → Prop} {as : List α} {bs : List β} {cs : List γ} {ds : List δ} (hR : List.Forall₂ R as bs)
    (hS : List.Forall₂ S bs cs) (hT : List.Forall₂ T ds cs)
    (h : ∀ a b c d, a ∈ as → R a b → S b c → T d c → U a d) : List.Forall₂ U as ds := by
  induction hR generalizing cs ds with
  | nil =>
    cases hS
    cases hT
    exact .nil
  | cons hab _ ih =>
    cases hS with
    | cons hbc hS =>
      cases hT with
      | cons hdc hT =>
        exact .cons (h _ _ _ _ List.mem_cons_self hab hbc hdc)
          (ih hS hT fun a b c d ha => h a b c d (List.mem_cons_of_mem _ ha))

/-- a list that is related to at most one -/
theorem rel_head?_of_forall₂ {α β : Type} {R : α → β → Prop} {o : Option α} {l : List β}
    (h : List.Forall₂ R o.toList l) : Option.Rel R o l.head? ∧ l.head?.toList = l := by
  cases o with
  | none =>
    cases h
    exact ⟨.none, rfl⟩
  | some a =>
    cases h with
    | cons hab h =>
      cases h
      exact ⟨.some hab, rfl⟩

namespace Forest

/-! ## new declarations -/

/-- `d` is new, with the declaration `y`, and has a new symbol of its own -/
structure IsNew (F G : Forest) (d : DeclarationId) (y : Declaration) : Prop where
  absent : F.declaration? d = none
  stored : G.declaration? d = some y
  fresh : F.symbol? y.symbol = none
  owned : G.owner? y.symbol = some d

/-- declarations and symbols stay as they were -/
structure Kept (F G : Forest) : Prop where
  declaration? : ∀ d x, F.declaration? d = some x → G.declaration? d = some x
  symbol? : ∀ s x, F.symbol? s = some x → G.symbol? s = some x

/-- the declarations `ys` are new, in the places `ds`, and all that was there is kept -/
structure Sown (F G : Forest) (ds : List DeclarationId) (ys : List Declaration) : Prop extends
    F.Kept G where
  nodup : ds.Nodup
  new : List.Forall₂ (F.IsNew G) ds ys

/-- the declarations `xs` are there, in the places `ds` -/
abbrev Lookups (F : Forest) : List DeclarationId → List Declaration → Prop :=
  List.Forall₂ fun d x => F.declaration? d = some x

/-- the symbols of some declarations -/
def symbolsOf (F : Forest) (ds : List DeclarationId) : List SymbolId :=
  ds.filterMap fun d => (F.declaration? d).map Declaration.symbol

section
variable {F G H : Forest} {d : DeclarationId} {x y : Declaration} {ds es : List DeclarationId}
  {xs ys zs : List Declaration}

theorem Kept.refl (F : Forest) : F.Kept F := ⟨fun _ _ h => h, fun _ _ h => h⟩

theorem Kept.trans (h : F.Kept G) (h' : G.Kept H) : F.Kept H where
  declaration? := fun d x hx => h'.declaration? d x (h.declaration? d x hx)
  symbol? := fun s x hx => h'.symbol? s x (h.symbol? s x hx)

theorem Kept.none_of_none (h : F.Kept G) (hd : G.declaration? d = none) : F.declaration? d = none :=
  eq_none_of_found hd fun x hx => Option.isSome_iff_exists.mpr ⟨x, h.declaration? d x hx⟩

theorem Kept.lookups (h : F.Kept G) (hx : F.Lookups ds xs) : G.Lookups ds xs :=
  hx.imp fun d x hd => h.declaration? d x hd

/-- what is new goes on being there -/
theorem IsNew.kept (h : F.IsNew G d y) (hk : G.Kept H) : F.IsNew H d y where
  absent := h.absent
  stored := hk.declaration? d y h.stored
  fresh := h.fresh
  owned := by
    obtain ⟨s, hs, ho⟩ := owner?_eq_some h.owned
    rw [owner?, hk.symbol? _ s hs, Option.bind_some, ho]

/-- what is new was not there before either -/
theorem IsNew.before (h : G.IsNew H d y) (hk : F.Kept G) : F.IsNew H d y where
  absent := hk.none_of_none h.absent
  stored := h.stored
  fresh := eq_none_of_found h.fresh fun s hs => Option.isSome_iff_exists.mpr ⟨s, hk.symbol? _ s hs⟩
  owned := h.owned

theorem Lookups.symbolsOf_eq (h : F.Lookups ds xs) : F.symbolsOf ds = xs.map Declaration.symbol := by
  induction h with
  | nil => rfl
  | cons hx _ ih =>
    rw [symbolsOf, List.filterMap_cons, hx, Option.map_some, List.map_cons, ← ih]
    rfl

theorem Lookups.congr (h : F.Lookups ds xs) (hG : ∀ d ∈ ds, G.declaration? d = F.declaration? d) :
    G.Lookups ds xs := by
  induction h with
  | nil => exact .nil
  | cons hx _ ih =>
    exact .cons ((hG _ List.mem_cons_self).trans hx) (ih fun d hd => hG d (List.mem_cons_of_mem _ hd))

theorem exists_lookups (h : ∀ d ∈ ds, (F.declaration? d).isSome) : ∃ xs, F.Lookups ds xs := by
  induction ds with
  | nil => exact ⟨[], .nil⟩
  | cons d ds ih =>
    obtain ⟨x, hx⟩ := Option.isSome_iff_exists.mp (h d List.mem_cons_self)
    obtain ⟨xs, hxs⟩ := ih fun a ha => h a (List.mem_cons_of_mem d ha)
    exact ⟨x :: xs, .cons hx hxs⟩

namespace Sown

theorem refl (F : Forest) : F.Sown F [] [] := ⟨.refl F, List.nodup_nil, .nil⟩

theorem absent (h : F.Sown G ds ys) (hd : d ∈ ds) : F.declaration? d = none := by
  obtain ⟨y, _, hy⟩ := exists_mem_of_forall₂ h.new hd
  exact hy.absent

theorem isSome (h : F.Sown G ds ys) (hd : d ∈ ds) : (G.declaration? d).isSome := by
  obtain ⟨y, _, hy⟩ := exists_mem_of_forall₂ h.new hd
  exact Option.isSome_iff_exists.mpr ⟨y, hy.stored⟩

/-- some declarations and then more -/
theorem append (h : F.Sown G ds ys) (h' : G.Sown H es zs) : F.Sown H (ds ++ es) (ys ++ zs) where
  toKept := h.toKept.trans h'.toKept
  nodup := List.nodup_append.mpr ⟨h.nodup, h'.nodup, fun d hd e he => by
    rintro rfl
    have := h.isSome hd
    rw [h'.absent he] at this
    cases this⟩
  new := List.rel_append (h.new.imp fun _ _ hd => hd.kept h'.toKept)
    (h'.new.imp fun _ _ hd => hd.before h.toKept)

/-- a declaration with a symbol of its own -/
theorem declare (F : Forest) {kind : SymbolKind} {signature : Option Signature}
    (hs : x.symbol = (F.addSymbol kind signature).1) :
    F.Sown ((F.addSymbol kind signature).2.addDeclaration x).2 [⟨F.declarations.size⟩] [x] where
  declaration? := fun _ _ => declaration?_declare_of_some
  symbol? := fun _ _ => symbol?_declare_of_some hs
  nodup := List.nodup_singleton _
  new := by
    refine .cons ⟨F.declaration?_size, (declaration?_addDeclaration _ _ _).trans (if_pos rfl), ?_, ?_⟩ .nil
    · rw [hs, symbol?_size]
    · refine owner?_addDeclaration _ _ ?_
      rw [hs, symbol?_addSymbol, if_pos rfl]
      rfl

/-- what owns its symbol does not share it -/
theorem nodup_symbols (h : F.Sown G ds ys) : (ys.map Declaration.symbol).Nodup := by
  obtain ⟨-, hnodup, hnew⟩ := h
  have howners : (ys.map Declaration.symbol).map G.owner? = ds.map some := by
    clear hnodup
    induction hnew with
    | nil => rfl
    | cons hy _ ih => rw [List.map_cons, List.map_cons, hy.owned, ih, List.map_cons]
  refine List.Nodup.of_map G.owner? ?_
  rw [howners]
  exact hnodup.map fun _ _ => Option.some.inj

end Sown

/-! ## edits of new declarations -/

theorem declaration?_renameBounds (r : Renaming) (hds : ds.Nodup) (d : DeclarationId) :
    (renameBounds r F ds).declaration? d = if d ∈ ds then (F.declaration? d).map
      (Declaration.mapTypeParameter fun p => ⟨p.bounds.map (TypeRef.rename r.apply)⟩)
    else F.declaration? d := by
  induction ds generalizing F with
  | nil => exact (if_neg List.not_mem_nil).symm
  | cons a ds ih =>
    obtain ⟨ha, hds⟩ := List.nodup_cons.mp hds
    show (renameBounds r _ ds).declaration? d = _
    rw [ih hds, declaration?_updateDeclaration]
    by_cases e : a = d
    · obtain rfl := e
      rw [if_neg ha, if_pos rfl, if_pos List.mem_cons_self]
    · simp [e, Ne.symm e]

theorem symbol?_renameBounds (r : Renaming) (s : SymbolId) :
    (renameBounds r F ds).symbol? s = F.symbol? s := by
  induction ds generalizing F with
  | nil => rfl
  | cons a ds ih => exact ih

/-- an edit of new declarations -/
theorem Sown.renameBounds (r : Renaming) (h : F.Sown G ds ys) : F.Sown (renameBounds r G ds) ds
    (ys.map (Declaration.mapTypeParameter fun p => ⟨p.bounds.map (TypeRef.rename r.apply)⟩)) where
  declaration? := fun d x hx => by
    rw [declaration?_renameBounds r h.nodup, if_neg, h.declaration? d x hx]
    intro hd
    rw [h.absent hd] at hx
    cases hx
  symbol? := fun s x hx => (symbol?_renameBounds r s).trans (h.symbol? s x hx)
  nodup := h.nodup
  new := by
    refine List.forall₂_map_right_iff.mpr (List.forall₂_iff_zip.mpr ⟨h.new.length_eq, fun hzip => ?_⟩)
    obtain ⟨hmem, -⟩ := List.of_mem_zip hzip
    obtain ⟨habsent, hstored, hfresh, howned⟩ := (List.forall₂_iff_zip.mp h.new).2 hzip
    refine ⟨habsent, ?_, ?_, ?_⟩
    · rw [declaration?_renameBounds r h.nodup, if_pos hmem, hstored, Option.map_some]
    · rw [Declaration.mapTypeParameter_symbol, hfresh]
    · rw [Declaration.mapTypeParameter_symbol, owner?, symbol?_renameBounds]
      exact howned

/-! ## copies of parameters -/

section
variable {function : DeclarationId}

/-- **Copied type parameters** are new, and the renaming leads to their symbols. -/
theorem sown_copyTypeParameters (function : DeclarationId) (h : F.Lookups ds xs) :
    ∃ ys, F.Sown (copyTypeParameters function F ds).2 (copyTypeParameters function F ds).1.2 ys
      ∧ (copyTypeParameters function F ds).1.1
        = ((xs.map Declaration.symbol).zip (ys.map Declaration.symbol)).reverse
      ∧ List.Forall₂ (fun x y =>
        y = { x with symbol := y.symbol, parent := some (.declaration function) }) xs ys := by
  induction ds generalizing F xs with
  | nil =>
    cases h
    exact ⟨[], .refl F, rfl, .nil⟩
  | cons d ds ih =>
    cases h with
    | @cons _ x _ xs hx hxs =>
    obtain ⟨y, hy⟩ : ∃ y : Declaration, y = { x with
      symbol := (F.addSymbol .typeParameter none).1, parent := some (.declaration function) } := ⟨_, rfl⟩
    have hsown : F.Sown ((F.addSymbol .typeParameter none).2.addDeclaration y).2
        [⟨F.declarations.size⟩] [y] := .declare F (by rw [hy])
    have hfirst : F.copyTypeParameter function d = (([(x.symbol, y.symbol)], [⟨F.declarations.size⟩]),
        ((F.addSymbol .typeParameter none).2.addDeclaration y).2) := by
      rw [copyTypeParameter, hx, hy]
      rfl
    obtain ⟨ys, hys, hpairs, hcopies⟩ := ih (hsown.toKept.lookups hxs)
    refine ⟨y :: ys, ?_, ?_, .cons (by rw [hy]) hcopies⟩
    · rw [copyTypeParameters, hfirst]
      exact hsown.append hys
    · rw [copyTypeParameters, hfirst, List.map_cons, List.map_cons, List.zip_cons_cons, List.reverse_cons,
        ← hpairs]

/-- the copy of a parameter, with the symbol `s` -/
def copiedParameter (r : Renaming) (function : DeclarationId) (s : SymbolId) (x : Declaration) :
    Declaration :=
  ⟨s, x.name, .defined, some (.declaration function), x.span, renamedParameter r x.content⟩

/-- **Copied parameters** are new. -/
theorem sown_copyParameters (r : Renaming) (function : DeclarationId) (h : F.Lookups ds xs) :
    ∃ ys, F.Sown (copyParameters r function F ds).2 (copyParameters r function F ds).1 ys
      ∧ List.Forall₂ (fun x y => y = copiedParameter r function y.symbol x) xs ys := by
  induction ds generalizing F xs with
  | nil =>
    cases h
    exact ⟨[], .refl F, .nil⟩
  | cons d ds ih =>
    cases h with
    | @cons _ x _ xs hx hxs =>
    obtain ⟨y, hy⟩ : ∃ y, y = copiedParameter r function (F.addSymbol .valueParameter none).1 x :=
      ⟨_, rfl⟩
    have hsown : F.Sown ((F.addSymbol .valueParameter none).2.addDeclaration y).2
        [⟨F.declarations.size⟩] [y] := .declare F (by rw [hy]; rfl)
    have hfirst : copyParameter r function F d = ([⟨F.declarations.size⟩],
        ((F.addSymbol .valueParameter none).2.addDeclaration y).2) := by
      rw [copyParameter, hx, hy]
      rfl
    obtain ⟨ys, hys, hcopies⟩ := ih (hsown.toKept.lookups hxs)
    refine ⟨y :: ys, ?_, .cons (by rw [hy]; rfl) hcopies⟩
    rw [copyParameters, hfirst]
    exact hsown.append hys

/-- the copy of a type parameter, with the symbol `s` -/
def copiedTypeParameter (r : Renaming) (function : DeclarationId) (s : SymbolId) (x : Declaration) :
    Declaration :=
  Declaration.mapTypeParameter (fun p => ⟨p.bounds.map (TypeRef.rename r.apply)⟩)
    { x with symbol := s, parent := some (.declaration function) }

/-- the receiver of a copy, with the symbol `s` -/
def ownReceiver (owner : Declaration) (function : DeclarationId) (s : SymbolId) : Declaration :=
  ⟨s, receiverName, .defined, some (.declaration function), owner.span,
    .ofParameter (.ofType (.simple owner.symbol))⟩

/-- **The parameters of a copy** are new, before the function is given them. -/
theorem exists_sown_copySignature (owner : Declaration) (function : DeclarationId) {f : FunctionInfo}
    {ts es vs : List Declaration} (hts : F.Lookups f.typeParameters ts)
    (hes : F.Lookups f.extensionReceiver.toList es) (hvs : F.Lookups f.valueParameters vs) :
    ∃ H types extension parameters dispatch tys eys vys z r,
      F.copySignature owner f function
        = H.updateDeclaration function (withCopies r types extension parameters dispatch)
      ∧ F.Sown H (types ++ extension ++ parameters ++ [dispatch]) (tys ++ eys ++ vys ++ [z])
      ∧ r = ((ts.map Declaration.symbol).zip (tys.map Declaration.symbol)).reverse
      ∧ (List.Forall₂ (F.IsNew H) types tys
        ∧ List.Forall₂ (fun x y => y = copiedTypeParameter r function y.symbol x) ts tys)
      ∧ (List.Forall₂ (F.IsNew H) extension eys
        ∧ List.Forall₂ (fun x y => y = copiedParameter r function y.symbol x) es eys)
      ∧ (List.Forall₂ (F.IsNew H) parameters vys
        ∧ List.Forall₂ (fun x y => y = copiedParameter r function y.symbol x) vs vys)
      ∧ F.IsNew H dispatch z ∧ z = ownReceiver owner function z.symbol := by
  unfold copySignature
  dsimp only
  obtain ⟨ys, hys, hpairs, hcopies⟩ := sown_copyTypeParameters function hts
  generalize copyTypeParameters function F f.typeParameters = types at hys hpairs
  -- the bounds are renamed when all type parameters have their copies
  obtain ⟨tys, htys⟩ : ∃ tys, tys = ys.map (Declaration.mapTypeParameter fun p =>
    ⟨p.bounds.map (TypeRef.rename types.1.1.apply)⟩) := ⟨_, rfl⟩
  have h₁ := hys.renameBounds types.1.1
  rw [← htys] at h₁
  have hsymbols : tys.map Declaration.symbol = ys.map Declaration.symbol := by
    rw [htys, List.map_map]
    exact List.map_congr_left fun x _ => x.mapTypeParameter_symbol _
  have htypes : List.Forall₂ (fun x y => y = copiedTypeParameter types.1.1 function y.symbol x) ts tys := by
    rw [htys]
    refine List.forall₂_map_right_iff.mpr (hcopies.imp fun x y hy => ?_)
    rw [Declaration.mapTypeParameter_symbol, copiedTypeParameter, ← hy]
  generalize renameBounds types.1.1 types.2 types.1.2 = F₁ at h₁
  obtain ⟨eys, h₂, hextension⟩ := sown_copyParameters types.1.1 function (h₁.toKept.lookups hes)
  generalize copyParameters types.1.1 function F₁ f.extensionReceiver.toList = extension at h₂
  obtain ⟨vys, h₃, hparameters⟩ := sown_copyParameters types.1.1 function
    ((h₁.append h₂).toKept.lookups hvs)
  generalize copyParameters types.1.1 function extension.2 f.valueParameters = parameters at h₃
  obtain ⟨z, hz⟩ : ∃ z, z = ownReceiver owner function (parameters.2.addSymbol .valueParameter none).1 :=
    ⟨_, rfl⟩
  have h₄ : parameters.2.Sown (parameters.2.newOwnReceiver owner function).2
      [(parameters.2.newOwnReceiver owner function).1] [z] := by
    rw [newOwnReceiver, hz]
    exact .declare parameters.2 rfl
  refine ⟨_, _, _, _, _, tys, eys, vys, z, types.1.1, rfl, ((h₁.append h₂).append h₃).append h₄, ?_,
    ⟨?_, htypes⟩, ⟨?_, hextension⟩, ⟨?_, hparameters⟩, ?_, ?_⟩
  · rw [hpairs, hsymbols]
  · exact h₁.new.imp fun _ _ h => h.kept ((h₂.append h₃).append h₄).toKept
  · exact h₂.new.imp fun _ _ h => (h.kept (h₃.append h₄).toKept).before h₁.toKept
  · exact h₃.new.imp fun _ _ h => (h.kept h₄.toKept).before (h₁.append h₂).toKept
  · obtain ⟨hz', -⟩ := List.forall₂_cons.mp h₄.new
    exact hz'.before ((h₁.append h₂).append h₃).toKept
  · rw [hz]
    rfl

end

/-! ## faithful copies -/

/-- `c` is a new type parameter of `function` with the name of `t` and its bounds, in terms of copies of
the symbols `own` -/
def CopiesTypeParameter (F G : Forest) (own : List SymbolId) (back : Renaming)
    (function t c : DeclarationId) : Prop :=
  ∃ x y p q, F.declaration? t = some x ∧ x.content = .ofTypeParameter p ∧ F.IsNew G c y
    ∧ y.name = x.name ∧ y.parent = some (.declaration function) ∧ y.content = .ofTypeParameter q
    ∧ List.Forall₂ (TypeCopy own back) p.bounds q.bounds

/-- `c` is a new parameter of `function` with the name of `v` and its types, in terms of copies of the
symbols `own`, and without a default value -/
def CopiesParameter (F G : Forest) (own : List SymbolId) (back : Renaming) (function v c : DeclarationId) :
    Prop :=
  ∃ x y p q, F.declaration? v = some x ∧ x.content = .ofParameter p ∧ F.IsNew G c y
    ∧ y.name = x.name ∧ y.parent = some (.declaration function) ∧ y.content = .ofParameter q
    ∧ TypeCopy own back p.type q.type ∧ Option.Rel (TypeCopy own back) p.element q.element
    ∧ q.default = none

/-- the parameters of the new function `n` of the class `owner`, and its type, are copies of those of `f`;
the renaming back leads from the symbols of its type parameters to those of `f` -/
structure CopiesSignature (F G : Forest) (owner : Declaration) (n : DeclarationId) (f g : FunctionInfo) :
    Prop where
  typeParameters : List.Forall₂ (F.CopiesTypeParameter G (F.symbolsOf f.typeParameters)
    ((G.symbolsOf g.typeParameters).zip (F.symbolsOf f.typeParameters)) n) f.typeParameters g.typeParameters
  extensionReceiver : Option.Rel (F.CopiesParameter G (F.symbolsOf f.typeParameters)
    ((G.symbolsOf g.typeParameters).zip (F.symbolsOf f.typeParameters)) n) f.extensionReceiver
    g.extensionReceiver
  valueParameters : List.Forall₂ (F.CopiesParameter G (F.symbolsOf f.typeParameters)
    ((G.symbolsOf g.typeParameters).zip (F.symbolsOf f.typeParameters)) n) f.valueParameters g.valueParameters
  returnType : TypeCopy (F.symbolsOf f.typeParameters)
    ((G.symbolsOf g.typeParameters).zip (F.symbolsOf f.typeParameters)) f.returnType g.returnType
  dispatchReceiver : ∃ r z, g.dispatchReceiver = some r ∧ F.IsNew G r z ∧ z = ownReceiver owner n z.symbol
  distinct : (n :: (g.typeParameters ++ g.extensionReceiver.toList ++ g.valueParameters
    ++ g.dispatchReceiver.toList)).Nodup

/-- `n` is a new member of the class `d`, at the end of its members, and a faithful copy of the function
`source`; all else is as it was -/
structure CopiesMember (F G : Forest) (d n : DeclarationId) (owner source y : Declaration)
    (f g : FunctionInfo) : Prop extends F.CopiesSignature G owner n f g where
  new : F.IsNew G n y
  name : y.name = source.name
  origin : y.origin = .unimplemented
  parent : y.parent = some (.declaration d)
  content : y.content = .ofFunction g
  visibility : g.visibility = f.visibility
  modality : g.modality = .overridable
  body : g.body = none
  overridden : g.overridden = [source.symbol]
  owner : G.declaration? d = some (owner.addMember n)
  others : ∀ a x, F.declaration? a = some x → a ≠ d → G.declaration? a = some x
  symbols : ∀ s x, F.symbol? s = some x → G.symbol? s = some x
  expressions : G.expressions = F.expressions
  files : G.files = F.files

theorem HasTypeParameter.exists_plain (h : F.HasTypeParameter d) :
    ∃ y, F.declaration? d = some y ∧ y.isClass = false := by
  obtain ⟨y, p, hy, hp⟩ := h
  exact ⟨y, hy, by simp [Declaration.isClass, Declaration.class?, hp]⟩

theorem HasParameter.exists_plain (h : F.HasParameter d) :
    ∃ y, F.declaration? d = some y ∧ y.isClass = false := by
  obtain ⟨y, p, hy, hp⟩ := h
  exact ⟨y, hy, by simp [Declaration.isClass, Declaration.class?, hp]⟩

section
variable {own : List SymbolId} {back r : Renaming} {function t c v : DeclarationId}

theorem copiesTypeParameter_of_eq {p : TypeParameterInfo} (hx : F.declaration? t = some x)
    (hp : x.content = .ofTypeParameter p) (hnew : F.IsNew G c y)
    (hy : y = copiedTypeParameter r function y.symbol x)
    (hcopy : ∀ b ∈ p.bounds, TypeCopy own back b (b.rename r.apply)) :
    F.CopiesTypeParameter G own back function t c := by
  have hcopied : y = { x with
      symbol := y.symbol
      parent := some (.declaration function)
      content := .ofTypeParameter ⟨p.bounds.map (TypeRef.rename r.apply)⟩ } := by
    rw [copiedTypeParameter, Declaration.mapTypeParameter] at hy
    simp only [hp] at hy
    exact hy
  refine ⟨x, y, p, _, hx, hp, hnew, by rw [hcopied], by rw [hcopied], by rw [hcopied],
    List.forall₂_map_right_iff.mpr (List.forall₂_same.mpr hcopy)⟩

theorem copiesParameter_of_eq {p : ParameterInfo} (hx : F.declaration? v = some x)
    (hp : x.content = .ofParameter p) (hnew : F.IsNew G c y)
    (hy : y = copiedParameter r function y.symbol x)
    (hcopy : ∀ b ∈ p.types, TypeCopy own back b (b.rename r.apply)) :
    F.CopiesParameter G own back function v c := by
  have hcontent : y.content = .ofParameter ⟨p.type.rename r.apply, p.element.map (TypeRef.rename r.apply),
      none⟩ := by
    rw [hy, copiedParameter, hp]
    rfl
  refine ⟨x, y, p, _, hx, hp, hnew, by rw [hy]; rfl, by rw [hy]; rfl, hcontent,
    hcopy _ List.mem_cons_self, ?_, rfl⟩
  cases he : p.element with
  | none => exact .none
  | some e => exact .some (hcopy e (by rw [ParameterInfo.types, he]; simp))

end

section
variable {own : List SymbolId} {back r : Renaming} {function : DeclarationId} {cs : List DeclarationId}

theorem forall₂_copiesTypeParameter (hxs : F.Lookups ds xs) (hnew : List.Forall₂ (F.IsNew G) cs ys)
    (hcopies : List.Forall₂ (fun x y => y = copiedTypeParameter r function y.symbol x) xs ys)
    (hds : ∀ t ∈ ds, F.HasTypeParameter t)
    (hcopy : ∀ t ∈ ds, ∀ b ∈ F.bounds t, TypeCopy own back b (b.rename r.apply)) :
    List.Forall₂ (F.CopiesTypeParameter G own back function) ds cs := by
  refine forall₂_through hxs hcopies hnew fun t x y c ht hx hy hc => ?_
  obtain ⟨x', p, hx', hp⟩ := hds t ht
  obtain rfl := Option.some.inj (hx.symm.trans hx')
  refine copiesTypeParameter_of_eq hx hp hc hy fun b hb => hcopy t ht b ?_
  rw [bounds_eq, hx, Option.bind_some, Declaration.typeParameter?, hp]
  simpa using hb

theorem forall₂_copiesParameter (hxs : F.Lookups ds xs) (hnew : List.Forall₂ (F.IsNew G) cs ys)
    (hcopies : List.Forall₂ (fun x y => y = copiedParameter r function y.symbol x) xs ys)
    (hds : ∀ q ∈ ds, F.HasParameter q)
    (hcopy : ∀ q ∈ ds, ∀ t ∈ (F.parameter? q).toList.flatMap ParameterInfo.types,
      TypeCopy own back t (t.rename r.apply)) :
    List.Forall₂ (F.CopiesParameter G own back function) ds cs := by
  refine forall₂_through hxs hcopies hnew fun q x y c hq hx hy hc => ?_
  obtain ⟨x', p, hx', hp⟩ := hds q hq
  obtain rfl := Option.some.inj (hx.symm.trans hx')
  refine copiesParameter_of_eq hx hp hc hy fun t ht => hcopy q hq t ?_
  rw [parameter?, hx, Option.bind_some, parameter?_eq_some.mpr hp]
  simpa using ht

end

/-- the types of the signature of a function, the dispatch receiver apart -/
def copiedTypes (F : Forest) (f : FunctionInfo) : List TypeRef :=
  f.typeParameters.flatMap F.bounds
    ++ (f.extensionReceiver.toList ++ f.valueParameters).flatMap
      (fun q => (F.parameter? q).toList.flatMap ParameterInfo.types)
    ++ [f.returnType]

/-- the type parameters of a function, and the types of its signature, have symbols of the forest -/
def KnowsSignature (F : Forest) (f : FunctionInfo) : Prop :=
  (∀ s ∈ F.symbolsOf f.typeParameters, F.Knows s) ∧ ∀ t ∈ F.copiedTypes f, ∀ s ∈ t.mentioned, F.Knows s

/-- **The types of a signature in terms of its copies**, which have new symbols. -/
theorem typeCopy_of_isNew {f : FunctionInfo} {r : Renaming} {cs : List DeclarationId} {t : TypeRef}
    (hxs : F.Lookups f.typeParameters xs) (hnew : List.Forall₂ (F.IsNew G) cs ys)
    (hr : r = ((xs.map Declaration.symbol).zip (ys.map Declaration.symbol)).reverse)
    (hlength : xs.length = ys.length) (hdistinct : (F.symbolsOf f.typeParameters).Nodup)
    (hnodup : (ys.map Declaration.symbol).Nodup) (hknown : F.KnowsSignature f) (ht : t ∈ F.copiedTypes f) :
    TypeCopy (F.symbolsOf f.typeParameters) ((G.symbolsOf cs).zip (F.symbolsOf f.typeParameters)) t
      (t.rename r.apply) := by
  have hnews : G.symbolsOf cs = ys.map Declaration.symbol :=
    Lookups.symbolsOf_eq (hnew.imp fun _ _ ha => ha.stored)
  have hfresh : ∀ s, F.Knows s → s ∉ G.symbolsOf cs := fun s hs hmem => by
    rw [hnews] at hmem
    obtain ⟨y, hy, rfl⟩ := List.mem_map.mp hmem
    obtain ⟨c, _, hc⟩ := exists_mem_of_forall₂ hnew.flip hy
    rw [Knows, hc.fresh] at hs
    cases hs
  rw [hr, ← hxs.symbolsOf_eq, ← hnews]
  refine typeCopy_rename ?_ hdistinct (hnews ▸ hnodup) (fun s hs => hfresh s (hknown.1 s hs))
    fun s hs => hfresh s (hknown.2 t ht s hs)
  rw [hxs.symbolsOf_eq, hnews, List.length_map, List.length_map, hlength]

/-! ## the copy -/

/-- `n` is new in `G`, with the declaration `x`, and joins the members of the class `d` -/
structure Joins (F G : Forest) (d n : DeclarationId) (owner x : Declaration) : Prop where
  new : F.IsNew G n x
  owner : G.declaration? d = some (owner.addMember n)
  others : ∀ a z, F.declaration? a = some z → a ≠ d → G.declaration? a = some z
  symbols : ∀ s z, F.symbol? s = some z → G.symbol? s = some z

section
variable {owner source : Declaration} {f : FunctionInfo} {m n a : DeclarationId}

/-- a new declaration that is no class is made a member of one -/
theorem joins_attach_declare (hd : F.declaration? d = some owner) {kind : SymbolKind}
    {signature : Option Signature} (hs : x.symbol = (F.addSymbol kind signature).1)
    (hx : x.isClass = false) :
    F.Joins (((F.addSymbol kind signature).2.addDeclaration x).2.attach (.declaration d)
      ⟨F.declarations.size⟩) d ⟨F.declarations.size⟩ owner { x with parent := some (.declaration d) } := by
  obtain ⟨hkept, -, hnew⟩ := Sown.declare F hs
  obtain ⟨⟨habsent, -, hfresh, howned⟩, -⟩ := List.forall₂_cons.mp hnew
  have hget : ∀ a z, F.declaration? a = some z →
      (((F.addSymbol kind signature).2.addDeclaration x).2.attach (.declaration d)
        ⟨F.declarations.size⟩).declaration? a
      = some (if d = a then z.addMember ⟨F.declarations.size⟩ else z) := fun a z ha => by
    have hne : (⟨F.declarations.size⟩ : DeclarationId) ≠ a := by
      rintro rfl
      rw [habsent] at ha
      cases ha
    show (updateDeclaration _ d (Declaration.addMember _)).declaration? a = _
    rw [declaration?_updateDeclaration, declaration?_update_of_ne hne, hkept.declaration? a z ha]
    split <;> rfl
  refine ⟨⟨habsent, F.declaration?_attach_declare d kind signature hx, hfresh, howned⟩, ?_,
    fun a z ha hne => ?_, hkept.symbol?⟩
  · rw [hget d owner hd, if_pos rfl]
  · rw [hget a z ha, if_neg (Ne.symm hne)]

namespace Joins

variable (h : F.Joins G d n owner x)
include h

theorem none_of_none (ha : G.declaration? a = none) : F.declaration? a = none := by
  refine eq_none_of_found ha fun z hz => ?_
  by_cases e : a = d
  · rw [e, h.owner, Option.isSome_some]
  · rw [h.others a z hz e, Option.isSome_some]

/-- what is no class is as it was -/
theorem exists_lookups (hd : F.declaration? d = some owner) (hclass : owner.isClass)
    (hds : ∀ a ∈ ds, ∃ y, F.declaration? a = some y ∧ y.isClass = false) :
    ∃ ys, F.Lookups ds ys ∧ G.Lookups ds ys := by
  obtain ⟨ys, hys⟩ := Forest.exists_lookups fun a ha => by
    obtain ⟨y, hy, -⟩ := hds a ha
    exact Option.isSome_iff_exists.mpr ⟨y, hy⟩
  refine ⟨ys, hys, hys.congr fun a ha => ?_⟩
  obtain ⟨y, hy, hplain⟩ := hds a ha
  rw [h.others a y hy, hy]
  rintro rfl
  rw [Option.some.inj (hd.symm.trans hy), hplain] at hclass
  cases hclass

/-- what is new after an edit of the member is new -/
theorem isNew {k : Declaration → Declaration} (hnew : G.IsNew H a y) :
    F.IsNew (H.updateDeclaration n k) a y where
  absent := h.none_of_none hnew.absent
  stored := by
    rw [declaration?_update_of_ne, hnew.stored]
    rintro rfl
    exact absurd (h.new.stored.symm.trans hnew.absent) (by simp)
  fresh := eq_none_of_found hnew.fresh fun z hz => Option.isSome_iff_exists.mpr ⟨z, h.symbols _ z hz⟩
  owned := hnew.owned

end Joins

/-- **The signature of a copy is faithful.** -/
theorem copiesSignature_of_joins (h : F.Joins G d n owner x) (hd : F.declaration? d = some owner)
    (hclass : owner.isClass) {k : FunctionInfo} (hk : x.content = .ofFunction k)
    (hreturn : k.returnType = f.returnType) (htypes : ∀ t ∈ f.typeParameters, F.HasTypeParameter t)
    (hdistinct : (F.symbolsOf f.typeParameters).Nodup)
    (hparameters : ∀ q ∈ f.extensionReceiver.toList ++ f.valueParameters, F.HasParameter q)
    (hknown : F.KnowsSignature f) :
    ∃ g, (G.copySignature owner f n).declaration? n = some { x with content := .ofFunction g }
      ∧ (∀ a z, G.declaration? a = some z → a ≠ n → (G.copySignature owner f n).declaration? a = some z)
      ∧ (∀ s z, G.symbol? s = some z → (G.copySignature owner f n).symbol? s = some z)
      ∧ (g.visibility = k.visibility ∧ g.modality = k.modality ∧ g.body = k.body
        ∧ g.overridden = k.overridden)
      ∧ F.CopiesSignature (G.copySignature owner f n) owner n f g := by
  have hextension := fun a ha => hparameters a (List.mem_append_left f.valueParameters ha)
  have hvalues := fun a ha => hparameters a (List.mem_append_right f.extensionReceiver.toList ha)
  obtain ⟨ts, hts, hts'⟩ := h.exists_lookups hd hclass fun a ha => (htypes a ha).exists_plain
  obtain ⟨es, hes, hes'⟩ := h.exists_lookups hd hclass fun a ha => (hextension a ha).exists_plain
  obtain ⟨vs, hvs, hvs'⟩ := h.exists_lookups hd hclass fun a ha => (hvalues a ha).exists_plain
  obtain ⟨H, types, extension, parameters, dispatch, tys, eys, vys, z, r, hresult, hsown, hr, ⟨htnew, htcopy⟩,
    ⟨henew, hecopy⟩, ⟨hvnew, hvcopy⟩, hznew, hz⟩ := exists_sown_copySignature owner n hts' hes' hvs'
  obtain ⟨K, hK⟩ : ∃ K, K = H.updateDeclaration n (withCopies r types extension parameters dispatch) :=
    ⟨_, rfl⟩
  rw [hresult, ← hK]
  have hnew : ∀ a w, G.IsNew H a w → F.IsNew K a w := fun _ _ ha => hK ▸ h.isNew ha
  have hnodup : (tys.map Declaration.symbol).Nodup := by
    refine hsown.nodup_symbols.sublist (List.Sublist.map _ ?_)
    rw [List.append_assoc, List.append_assoc]
    exact List.sublist_append_left _ _
  have hcopy : ∀ t ∈ F.copiedTypes f, TypeCopy (F.symbolsOf f.typeParameters)
      ((K.symbolsOf types).zip (F.symbolsOf f.typeParameters)) t (t.rename r.apply) := fun t =>
    typeCopy_of_isNew hts (htnew.imp hnew) hr htcopy.length_eq hdistinct hnodup hknown
  obtain ⟨hrel, hhead⟩ := rel_head?_of_forall₂ (forall₂_copiesParameter hes (henew.imp hnew) hecopy hextension
    fun q hq t ht => hcopy t (by
      unfold copiedTypes
      exact List.mem_append_left _ (List.mem_append_right _ (List.mem_flatMap.mpr
        ⟨q, List.mem_append_left _ hq, ht⟩))))
  refine ⟨{ k with
      returnType := k.returnType.rename r.apply
      typeParameters := types
      extensionReceiver := extension.head?
      valueParameters := parameters
      dispatchReceiver := some dispatch }, ?_, fun a w ha hne => ?_, fun s w hs => ?_,
    ⟨rfl, rfl, rfl, rfl⟩, ?_⟩
  · rw [hK, declaration?_updateDeclaration, if_pos rfl, hsown.declaration? n x h.new.stored, Option.map_some,
      withCopies, Declaration.mapFunction]
    simp only [hk]
  · rw [hK, declaration?_update_of_ne (Ne.symm hne), hsown.declaration? a w ha]
  · rw [hK]
    exact hsown.symbol? s w hs
  refine ⟨?_, hrel, ?_, ?_, ⟨dispatch, z, rfl, hnew dispatch z hznew, hz⟩, ?_⟩
  · refine forall₂_copiesTypeParameter hts (htnew.imp hnew) htcopy htypes fun t ht b hb => hcopy b ?_
    unfold copiedTypes
    exact List.mem_append_left _ (List.mem_append_left _ (List.mem_flatMap.mpr ⟨t, ht, hb⟩))
  · refine forall₂_copiesParameter hvs (hvnew.imp hnew) hvcopy hvalues fun q hq t ht => hcopy t ?_
    unfold copiedTypes
    exact List.mem_append_left _ (List.mem_append_right _ (List.mem_flatMap.mpr
      ⟨q, List.mem_append_right _ hq, ht⟩))
  · rw [hreturn]
    refine hcopy _ ?_
    unfold copiedTypes
    exact List.mem_append_right _ (List.mem_singleton_self _)
  · rw [hhead]
    refine List.nodup_cons.mpr ⟨fun hmem => ?_, hsown.nodup⟩
    have hn := hsown.absent hmem
    rw [h.new.stored] at hn
    cases hn

/-- **The copy of a function in a class is faithful.** -/
theorem copyMember_faithful (hd : F.declaration? d = some owner) (hclass : owner.isClass)
    (hm : F.declaration? m = some source) (hf : source.content = .ofFunction f)
    (htypes : ∀ t ∈ f.typeParameters, F.HasTypeParameter t)
    (hdistinct : (F.symbolsOf f.typeParameters).Nodup)
    (hparameters : ∀ q ∈ f.extensionReceiver.toList ++ f.valueParameters, F.HasParameter q)
    (hknown : F.KnowsSignature f) :
    ∃ y g, F.CopiesMember (F.copyMember d m).2 d (F.copyMember d m).1 owner source y f g := by
  have hfun : F.function? m = some f := by simp [function?, hm, Declaration.function?, hf]
  have hgrows : Grows (fun _ => True) F (F.copyMember d m).2 := grows_copyMember trivial
  -- the function is a member of the class before it has parameters
  obtain ⟨x, hx⟩ : ∃ x : Declaration, x = ⟨(F.addSymbol .function (F.memberSignature owner source.name)).1,
    source.name, .unimplemented, none, owner.span, .ofFunction (emptyCopy f source.symbol)⟩ := ⟨_, rfl⟩
  obtain ⟨n, hn⟩ : ∃ n : DeclarationId, n = ⟨F.declarations.size⟩ := ⟨_, rfl⟩
  obtain ⟨G, hG⟩ : ∃ G, G = ((F.addSymbol .function (F.memberSignature owner source.name)).2.addDeclaration
    x).2.attach (.declaration d) ⟨F.declarations.size⟩ := ⟨_, rfl⟩
  have hcopy : F.copyMember d m = (n, G.copySignature owner f n) := by
    rw [hG, hn, hx]
    simp only [copyMember, hd, hm, hfun]
    rfl
  have hjoins : F.Joins G d n owner { x with parent := some (.declaration d) } := by
    rw [hG, hn]
    exact joins_attach_declare hd (by rw [hx]) (by rw [hx]; rfl)
  have hreturn : (emptyCopy f source.symbol).returnType = f.returnType := rfl
  obtain ⟨g, hstored, hkept, hsymbols, ⟨hvisibility, hmodality, hbody, hoverridden⟩, hsignature⟩ :=
    copiesSignature_of_joins hjoins hd hclass (by rw [hx]) hreturn htypes hdistinct hparameters hknown
  have hne : ∀ a z, F.declaration? a = some z → a ≠ n := by
    rintro a z ha rfl
    rw [hjoins.new.absent] at ha
    cases ha
  rw [hcopy] at hgrows ⊢
  refine ⟨{ x with parent := some (.declaration d), content := .ofFunction g }, g, {
    toCopiesSignature := hsignature
    new := ⟨hjoins.new.absent, hstored, hjoins.new.fresh, ?_⟩
    name := by rw [hx]
    origin := by rw [hx]
    parent := rfl
    content := rfl
    visibility := hvisibility
    modality := hmodality
    body := hbody
    overridden := hoverridden
    owner := hkept d _ hjoins.owner (hne d owner hd)
    others := fun a z ha had => hkept a z (hjoins.others a z ha had) (hne a z ha)
    symbols := fun s z hs => hsymbols s z (hjoins.symbols s z hs)
    expressions := hgrows.expressions
    files := hgrows.files }⟩
  obtain ⟨w, hw, ho⟩ := owner?_eq_some hjoins.new.owned
  rw [owner?, hsymbols _ w hw, Option.bind_some, ho]

end

/-- an interface `I` with `fun <T : I<T>> T.f(x: I<*, T?>, y): T`, where the type of `y` is a marker that
erases to `T`, and a class `C` -/
def genericMember : Forest :=
  ((Build.start "m").after
    [.file "p" "a" "", .ofClass "p" (.file ⟨1⟩) "I" .interface,
      .function "p" (.declaration ⟨6⟩) "f" (.simple ⟨8⟩),
      .typeParameter ⟨7⟩ "T" [.named ⟨6⟩ [.projection (.simple ⟨8⟩)] false],
      .extensionReceiver ⟨7⟩ (.simple ⟨8⟩),
      .valueParameter ⟨7⟩ "x" (.named ⟨6⟩ [.star, .projection (.named ⟨8⟩ [] true)] false),
      .valueParameter ⟨7⟩ "y" (.marker ⟨8⟩ ⟨0⟩), .ofClass "p" (.file ⟨1⟩) "C" .plain]).forest

/-- the function of `I` and the class `C` -/
theorem genericMember_fits : ∃ owner source f, genericMember.declaration? ⟨12⟩ = some owner
    ∧ owner.isClass ∧ genericMember.declaration? ⟨7⟩ = some source ∧ source.content = .ofFunction f
    ∧ (∀ t ∈ f.typeParameters, genericMember.HasTypeParameter t)
    ∧ (genericMember.symbolsOf f.typeParameters).Nodup
    ∧ (∀ q ∈ f.extensionReceiver.toList ++ f.valueParameters, genericMember.HasParameter q)
    ∧ genericMember.KnowsSignature f ∧ ⟨8⟩ ∈ genericMember.symbolsOf f.typeParameters := by
  obtain ⟨f, hf⟩ : ∃ f, f = { FunctionInfo.returning (.simple ⟨8⟩) with
    typeParameters := [⟨8⟩]
    extensionReceiver := some ⟨9⟩
    valueParameters := [⟨10⟩, ⟨11⟩] } := ⟨_, rfl⟩
  have hd : genericMember.declaration? ⟨12⟩
      = some ⟨⟨12⟩, "C", .defined, some (.file ⟨1⟩), .undefined, .ofClass ClassInfo.blank⟩ := rfl
  have hm : genericMember.declaration? ⟨7⟩
      = some ⟨⟨7⟩, "f", .defined, some (.declaration ⟨6⟩), .undefined, .ofFunction f⟩ := by
    rw [hf]
    rfl
  refine ⟨_, _, f, hd, rfl, hm, rfl, ?_, ?_, ?_, ?_, ?_⟩ <;> rw [hf]
  · intro t ht
    obtain rfl := List.mem_singleton.mp ht
    exact ⟨_, _, rfl, rfl⟩
  · decide +kernel
  · intro q hq
    have hq : q = ⟨9⟩ ∨ q = ⟨10⟩ ∨ q = ⟨11⟩ := by simpa using hq
    obtain rfl | rfl | rfl := hq <;> exact ⟨_, _, rfl, rfl⟩
  · unfold KnowsSignature Knows
    decide +kernel
  · decide +kernel

theorem copyMember_genericMember : ∃ owner source f y g, genericMember.declaration? ⟨12⟩ = some owner
    ∧ genericMember.declaration? ⟨7⟩ = some source ∧ source.content = .ofFunction f
    ∧ genericMember.KnowsSignature f
    ∧ genericMember.CopiesMember (genericMember.copyMember ⟨12⟩ ⟨7⟩).2 ⟨12⟩
      (genericMember.copyMember ⟨12⟩ ⟨7⟩).1 owner source y f g := by
  obtain ⟨owner, source, f, hd, hclass, hm, hf, htypes, hdistinct, hparameters, hknown, -⟩ :=
    genericMember_fits
  obtain ⟨y, g, hcopy⟩ := copyMember_faithful hd hclass hm hf htypes hdistinct hparameters hknown
  exact ⟨owner, source, f, y, g, hd, hm, hf, hknown, hcopy⟩

/-- a marker of a copy may erase to a type parameter of the function that was copied: markers are kept as
they are -/
theorem not_forall_classifiers_copyMember : ¬ ∀ (F : Forest) (d m : DeclarationId)
    (owner source : Declaration) (f : FunctionInfo), F.declaration? d = some owner → owner.isClass → F.declaration? m = some source →
    source.content = .ofFunction f → (∀ t ∈ f.typeParameters, F.HasTypeParameter t) →
    (F.symbolsOf f.typeParameters).Nodup →
    (∀ q ∈ f.extensionReceiver.toList ++ f.valueParameters, F.HasParameter q) → F.KnowsSignature f →
    ∀ g, (F.copyMember d m).2.function? (F.copyMember d m).1 = some g →
    ∀ q ∈ g.valueParameters, ∀ p, (F.copyMember d m).2.parameter? q = some p →
    ∀ s ∈ F.symbolsOf f.typeParameters, s ∉ p.type.classifiers := by
  intro h
  obtain ⟨owner, source, f, hd, hclass, hm, hf, htypes, hdistinct, hparameters, hknown, hown⟩ :=
    genericMember_fits
  have hg : ((genericMember.copyMember ⟨12⟩ ⟨7⟩).2.function? (genericMember.copyMember ⟨12⟩ ⟨7⟩).1).map
      FunctionInfo.valueParameters = some [⟨16⟩, ⟨17⟩] := by decide +kernel
  obtain ⟨g, hg, hvalues⟩ := Option.map_eq_some_iff.mp hg
  have hp : ((genericMember.copyMember ⟨12⟩ ⟨7⟩).2.parameter? ⟨17⟩).map (fun p => p.type.classifiers)
      = some [⟨8⟩] := by decide +kernel
  obtain ⟨p, hp, hclassifiers⟩ := Option.map_eq_some_iff.mp hp
  exact h genericMember ⟨12⟩ ⟨7⟩ owner source f hd hclass hm hf htypes hdistinct hparameters hknown g hg ⟨17⟩
    (by simp [hvalues]) p hp ⟨8⟩ hown (by simp [hclassifiers])

end

end Forest

end LinkRepair
