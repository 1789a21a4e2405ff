import LinkRepair.Proofs.Forest.Branches
import LinkRepair.Proofs.Repair.Grafts

/-!
# Where additions hang

Whatever is put into a forest hangs in one place there: an initializer or a copied member below its
class, the parameters of the member below the member, and the argument of a call below the call.

* `children_updateDeclaration`   the children of a node after an edit;
* `Forest.Laid`                  copies that were made under a function, and are not listed yet;
* `exists_laid_copySignature`    the function lists them in the end, and nothing else does;
* `Forest.Hung`                  one new declaration, attached to another one;
* `branches_newInitializer`, `branches_copyMember`   both kinds of additions make new branches.
-/

namespace LinkRepair

namespace Forest

section
variable {F G H : Forest} {a : Node} {d : DeclarationId} {x : Declaration}

/-! ## children after an edit -/

theorem children_congr (h : G.declaration? d = F.declaration? d) :
    G.children (.declaration d) = F.children (.declaration d) := by
  simp only [children, h]

theorem children_eq_nil (h : F.declaration? d = none) : F.children (.declaration d) = [] := by
  simp only [children, h]

theorem children_updateDeclaration_of_ne {g : Declaration → Declaration} (h : a ≠ .declaration d) :
    (F.updateDeclaration d g).children a = F.children a := by
  cases a with
  | declaration b =>
    apply children_congr
    rw [declaration?_updateDeclaration, if_neg (by rintro rfl; exact h rfl)]
  | expression e => rfl

theorem children_updateDeclaration {g : Declaration → Declaration} (h : F.declaration? d = some x) :
    (F.updateDeclaration d g).children (.declaration d) = (g x).content.children := by
  rw [children_declaration (x := g x)]
  rw [declaration?_updateDeclaration, if_pos rfl, h]
  rfl

/-- an edit that leaves alone what is listed -/
theorem children_updateDeclaration_eq {g : Declaration → Declaration}
    (h : ∀ x, F.declaration? d = some x → (g x).content.children = x.content.children) :
    (F.updateDeclaration d g).children = F.children := by
  funext a
  by_cases ha : a = .declaration d
  · subst ha
    cases hx : F.declaration? d with
    | none => exact children_congr (by rw [declaration?_updateDeclaration, if_pos rfl, hx]; rfl)
    | some x => rw [children_updateDeclaration hx, children_declaration hx, h x hx]
  · exact children_updateDeclaration_of_ne ha

/-- a new declaration with nothing below it -/
theorem children_addDeclaration (F : Forest) (kind : SymbolKind) (signature : Option Signature)
    (h : x.content.children = []) :
    ((F.addSymbol kind signature).2.addDeclaration x).2.children = F.children := by
  funext a
  cases a with
  | expression e => rfl
  | declaration b =>
    by_cases e : b = ((F.addSymbol kind signature).2.addDeclaration x).1
    · subst e
      refine (children_declaration ((declaration?_addDeclaration _ _ _).trans (if_pos rfl))).trans ?_
      exact h.trans (children_eq_nil F.declaration?_size).symm
    · exact children_congr ((declaration?_addDeclaration _ _ _).trans (if_neg e))

theorem parentLink?_updateDeclaration {g : Declaration → Declaration} (h : ∀ x, (g x).parent = x.parent)
    (b : DeclarationId) : (F.updateDeclaration d g).parentLink? b = F.parentLink? b := by
  unfold parentLink?
  rw [declaration?_updateDeclaration]
  split
  · cases F.declaration? b with
    | none => rfl
    | some x => exact h x
  · rfl

/-! ## copies -/

/-- `l` are new declarations under `function`, with nothing below them, that no node lists yet -/
structure Laid (function : DeclarationId) (F G : Forest) (l : List DeclarationId) : Prop where
  children : G.children = F.children
  size : F.declarations.size ≤ G.declarations.size
  nodup : l.Nodup
  fresh : ∀ c ∈ l, F.declarations.size ≤ c.index ∧ c.index < G.declarations.size
  link : ∀ c ∈ l, G.parentLink? c = some (.declaration function)
  kept : ∀ c, (F.declaration? c).isSome → G.parentLink? c = F.parentLink? c
  keeps : F.Keeps G

variable {function : DeclarationId} {l l' : List DeclarationId}

theorem Laid.refl (function : DeclarationId) (F : Forest) : Laid function F F [] where
  children := rfl
  size := Nat.le_refl _
  nodup := List.nodup_nil
  fresh := fun _ hc => absurd hc List.not_mem_nil
  link := fun _ hc => absurd hc List.not_mem_nil
  kept := fun _ _ => rfl
  keeps := .refl F

theorem Laid.append (h : Laid function F G l) (h' : Laid function G H l') :
    Laid function F H (l ++ l') where
  children := h'.children.trans h.children
  size := Nat.le_trans h.size h'.size
  nodup := List.nodup_append.mpr ⟨h.nodup, h'.nodup, fun c hc b hb => by
    rintro rfl
    exact Nat.lt_irrefl _ (Nat.lt_of_lt_of_le (h.fresh c hc).2 (h'.fresh c hb).1)⟩
  fresh := fun c hc => by
    rcases List.mem_append.mp hc with hc | hc
    · exact ⟨(h.fresh c hc).1, Nat.lt_of_lt_of_le (h.fresh c hc).2 h'.size⟩
    · exact ⟨Nat.le_trans h.size (h'.fresh c hc).1, (h'.fresh c hc).2⟩
  link := fun c hc => by
    rcases List.mem_append.mp hc with hc | hc
    · rw [h'.kept c (declaration?_isSome.mpr (h.fresh c hc).2), h.link c hc]
    · exact h'.link c hc
  kept := fun c hc => by
    rw [h'.kept c (declaration?_isSome.mpr
      (Nat.lt_of_lt_of_le (declaration?_isSome.mp hc) h.size)), h.kept c hc]
  keeps := h.keeps.trans h'.keeps

theorem laid_declare {kind : SymbolKind} {signature : Option Signature} (hx : x.content.children = [])
    (hp : x.parent = some (.declaration function)) :
    Laid function F ((F.addSymbol kind signature).2.addDeclaration x).2
      [((F.addSymbol kind signature).2.addDeclaration x).1] where
  children := children_addDeclaration F kind signature hx
  size := by
    rw [size_addDeclaration]
    exact Nat.le_succ _
  nodup := List.nodup_singleton _
  fresh := fun c hc => by
    rw [List.mem_singleton.mp hc, size_addDeclaration]
    exact ⟨Nat.le_refl _, Nat.lt_succ_self _⟩
  link := fun c hc => by
    unfold parentLink?
    rw [List.mem_singleton.mp hc, declaration?_addDeclaration, if_pos rfl]
    exact hp
  kept := fun c hc => by
    obtain ⟨y, hy⟩ := Option.isSome_iff_exists.mp hc
    unfold parentLink?
    rw [hy, declaration?_declare_of_some hy]
  keeps := keeps_of_declaration? fun _ _ => declaration?_declare_of_some

theorem laid_copyTypeParameters (function : DeclarationId) : ∀ {ds : List DeclarationId} {F : Forest},
    (∀ t ∈ ds, F.HasTypeParameter t) →
    Laid function F (copyTypeParameters function F ds).2 (copyTypeParameters function F ds).1.2 := by
  intro ds
  induction ds with
  | nil => intro F _; exact .refl function F
  | cons d ds ih =>
    intro F hds
    have hfirst : Laid function F (F.copyTypeParameter function d).2
        (F.copyTypeParameter function d).1.2 := by
      obtain ⟨x, p, hx, hp⟩ := hds d List.mem_cons_self
      unfold copyTypeParameter
      rw [hx]
      exact laid_declare (by show x.content.children = []; rw [hp]; rfl) rfl
    exact hfirst.append (ih fun t ht => hfirst.keeps.typeParameter t (hds t (List.mem_cons_of_mem _ ht)))

theorem laid_renameBounds (function : DeclarationId) (r : Renaming) : ∀ (copies : List DeclarationId)
    (F : Forest), Laid function F (renameBounds r F copies) [] := by
  intro copies
  induction copies with
  | nil => exact fun F => .refl function F
  | cons d copies ih =>
    intro F
    have hfirst : Laid function F (F.updateDeclaration d <| Declaration.mapTypeParameter fun p =>
        ⟨p.bounds.map (TypeRef.rename r.apply)⟩) [] :=
      { Laid.refl function F with
        children := children_updateDeclaration_eq fun x _ => by
          obtain ⟨_, _, _, _, _, content⟩ := x
          cases content <;> rfl
        size := Nat.le_of_eq (size_updateDeclaration _ _).symm
        fresh := fun _ hc => absurd hc List.not_mem_nil
        link := fun _ hc => absurd hc List.not_mem_nil
        kept := fun c _ => parentLink?_updateDeclaration (fun x => by
          unfold Declaration.mapTypeParameter
          split <;> rfl) c
        keeps := keeps_mapTypeParameter }
    exact hfirst.append (ih _)

theorem laid_copyParameters (r : Renaming) (function : DeclarationId) :
    ∀ (ds : List DeclarationId) {F : Forest}, (∀ q ∈ ds, F.HasParameter q) →
    Laid function F (copyParameters r function F ds).2 (copyParameters r function F ds).1 := by
  intro ds
  induction ds with
  | nil => intro F _; exact .refl function F
  | cons d ds ih =>
    intro F hds
    have hfirst : Laid function F (copyParameter r function F d).2 (copyParameter r function F d).1 := by
      obtain ⟨x, p, hx, hp⟩ := hds d List.mem_cons_self
      unfold copyParameter
      rw [hx]
      exact laid_declare (by show (renamedParameter r x.content).children = []; rw [hp]; rfl) rfl
    exact hfirst.append (ih fun q hq => hfirst.keeps.parameter q (hds q (List.mem_cons_of_mem _ hq)))

/-- the parameters are copied first, and then the function is given the copies -/
theorem exists_laid_copies (owner : Declaration) {f : FunctionInfo}
    (htypes : ∀ t ∈ f.typeParameters, F.HasTypeParameter t)
    (hparameters : ∀ q ∈ f.parameters, F.HasParameter q) :
    ∃ G r types extension parameters dispatch,
      Laid function F G (types ++ extension ++ parameters ++ [dispatch])
      ∧ F.copySignature owner f function
        = G.updateDeclaration function (withCopies r types extension parameters dispatch) := by
  unfold copySignature
  dsimp only
  have h₁ := laid_copyTypeParameters function htypes
  generalize copyTypeParameters function F f.typeParameters = types at h₁
  have h₂ := h₁.append (laid_renameBounds function types.1.1 types.1.2 types.2)
  generalize renameBounds types.1.1 types.2 types.1.2 = F₂ at h₂
  have h₃ := laid_copyParameters types.1.1 function f.extensionReceiver.toList (F := F₂) fun q hq =>
    h₂.keeps.parameter q (hparameters q (by
      unfold FunctionInfo.parameters
      exact List.mem_append_left _ (List.mem_append_right _ hq)))
  generalize copyParameters types.1.1 function F₂ f.extensionReceiver.toList = extension at h₃
  have h₄ := laid_copyParameters types.1.1 function f.valueParameters (F := extension.2) fun q hq =>
    (h₂.append h₃).keeps.parameter q (hparameters q (by
      unfold FunctionInfo.parameters
      exact List.mem_append_right _ hq))
  generalize copyParameters types.1.1 function extension.2 f.valueParameters = parameters at h₄
  have h₅ : Laid function parameters.2 (parameters.2.newOwnReceiver owner function).2
      [(parameters.2.newOwnReceiver owner function).1] := laid_declare rfl rfl
  have hall := ((h₂.append h₃).append h₄).append h₅
  rw [List.append_nil] at hall
  exact ⟨_, _, _, _, _, _, hall, rfl⟩

/-- the copies are listed, but for all extension receivers after the first.  A function that lists
nothing has no body. -/
theorem exists_children_withCopies (r : Renaming) (types extension parameters : List DeclarationId)
    (dispatch : DeclarationId) (hempty : F.children (.declaration function) = []) :
    ∃ slots : List DeclarationId, slots.Subperm (types ++ extension ++ parameters ++ [dispatch])
      ∧ (F.updateDeclaration function (withCopies r types extension parameters dispatch)).children
          (.declaration function) = slots.map .declaration := by
  have hsub : (types ++ extension.head?.toList ++ parameters ++ [dispatch]).Sublist
      (types ++ extension ++ parameters ++ [dispatch]) := by
    refine (((List.Sublist.refl _).append ?_).append (List.Sublist.refl _)).append
      (List.Sublist.refl _)
    cases extension with
    | nil => exact .refl []
    | cons c l => exact List.singleton_sublist.mpr List.mem_cons_self
  have hperm : (types ++ [dispatch] ++ extension.head?.toList ++ parameters).Perm
      (types ++ extension.head?.toList ++ parameters ++ [dispatch]) := by
    simp only [List.append_assoc]
    refine List.Perm.append_left _ ?_
    rw [← List.append_assoc extension.head?.toList]
    exact List.perm_append_comm
  cases hx : F.declaration? function with
  | none => exact ⟨[], List.nil_subperm, by simp [children, declaration?_updateDeclaration, hx]⟩
  | some x =>
    rw [children_declaration hx] at hempty
    rw [children_updateDeclaration hx]
    obtain ⟨_, _, _, _, _, content⟩ := x
    cases content with
    | ofFunction info =>
      refine ⟨types ++ [dispatch] ++ extension.head?.toList ++ parameters,
        hperm.subperm.trans hsub.subperm, ?_⟩
      have hbody : (info.body.getD []).map Statement.node = [] := (List.append_eq_nil_iff.mp hempty).2
      simp only [withCopies, Declaration.mapFunction, Content.children, hbody, List.append_nil,
        Option.toList_some]
    | _ => exact ⟨[], List.nil_subperm, hempty⟩

/-- a function with nothing below it is given copies of the parameters of `f`, and nothing else is
listed anew -/
theorem exists_laid_copySignature (owner : Declaration) {f : FunctionInfo}
    (hempty : F.children (.declaration function) = [])
    (htypes : ∀ t ∈ f.typeParameters, F.HasTypeParameter t)
    (hparameters : ∀ q ∈ f.parameters, F.HasParameter q) : ∃ slots : List DeclarationId,
      slots.Nodup
      ∧ (F.copySignature owner f function).children (.declaration function) = slots.map .declaration
      ∧ (∀ a, a ≠ .declaration function →
        (F.copySignature owner f function).children a = F.children a)
      ∧ (∀ c ∈ slots, F.declarations.size ≤ c.index
        ∧ (F.copySignature owner f function).parentLink? c = some (.declaration function))
      ∧ ∀ c, (F.declaration? c).isSome →
        (F.copySignature owner f function).parentLink? c = F.parentLink? c := by
  obtain ⟨G, r, types, extension, parameters, dispatch, hlaid, e⟩ :=
    exists_laid_copies owner htypes hparameters
  obtain ⟨slots, hslots, hchildren⟩ := exists_children_withCopies r types extension parameters dispatch
    ((congrFun hlaid.children _).trans hempty)
  have hparent : ∀ x : Declaration,
      (withCopies r types extension parameters dispatch x).parent = x.parent := fun x => by
    unfold withCopies Declaration.mapFunction
    split <;> rfl
  rw [e]
  refine ⟨slots, ?_, hchildren, fun a ha => ?_, fun c hc => ?_, fun c hc => ?_⟩
  · obtain ⟨l, hl, hls⟩ := hslots
    exact hl.nodup_iff.mp (hlaid.nodup.sublist hls)
  · rw [children_updateDeclaration_of_ne ha, hlaid.children]
  · have hmem := hslots.subset hc
    exact ⟨(hlaid.fresh c hmem).1,
      (parentLink?_updateDeclaration hparent c).trans (hlaid.link c hmem)⟩
  · exact (parentLink?_updateDeclaration hparent c).trans (hlaid.kept c hc)

/-! ## additions -/

theorem newBelow_of_link {c : DeclarationId} (hc : F.declaration? c = none)
    (h : G.parentLink? c = some (.declaration d)) : F.NewBelow G (.declaration d) (.declaration c) where
  isNew := not_stores_declaration hc
  stores := isSome_of_parentLink? h
  link := fun e he => by
    obtain rfl := Node.declaration.inj he
    exact ⟨d, rfl, h⟩

/-- attaching a declaration lists it in its class, at the end -/
theorem exists_children_attach (F : Forest) (d child : DeclarationId) :
    ∃ l : List Node, (l = [] ∨ l = [.declaration child])
      ∧ ∀ a, (F.attach (.declaration d) child).children a
        = F.children a ++ if a = .declaration d then l else [] := by
  have hparent : (F.updateDeclaration child fun x => { x with parent := some (.declaration d) }).children
      = F.children := children_updateDeclaration_eq fun _ _ => rfl
  show ∃ l : List Node, (l = [] ∨ l = [.declaration child])
      ∧ ∀ a, (updateDeclaration _ d (Declaration.addMember child)).children a = _
  generalize F.updateDeclaration child _ = G at hparent
  have hother : ∀ a, a ≠ .declaration d →
      (G.updateDeclaration d (Declaration.addMember child)).children a = F.children a := fun a ha => by
    rw [children_updateDeclaration_of_ne ha, hparent]
  obtain ⟨l, hl, hd⟩ : ∃ l : List Node, (l = [] ∨ l = [.declaration child])
      ∧ (G.updateDeclaration d (Declaration.addMember child)).children (.declaration d)
        = F.children (.declaration d) ++ l := by
    rw [← hparent]
    cases hx : G.declaration? d with
    | none =>
      refine ⟨[], .inl rfl, ?_⟩
      rw [List.append_nil]
      exact children_congr (by rw [declaration?_updateDeclaration, if_pos rfl, hx]; rfl)
    | some x =>
      rw [children_updateDeclaration hx, children_declaration hx]
      obtain ⟨_, _, _, _, _, content⟩ := x
      cases content with
      | ofClass c =>
        exact ⟨[.declaration child], .inr rfl, by
          simp [Declaration.addMember, Declaration.mapClass, Content.children]⟩
      | _ => exact ⟨[], .inl rfl, (List.append_nil _).symm⟩
  refine ⟨l, hl, fun a => ?_⟩
  split
  · rename_i ha
    rw [ha, hd]
  · rename_i ha
    rw [hother a ha, List.append_nil]

theorem parentLink?_attach {child : DeclarationId} (h : (F.declaration? child).isSome) :
    (F.attach (.declaration d) child).parentLink? child = some (.declaration d) := by
  obtain ⟨x, hx⟩ := Option.isSome_iff_exists.mp h
  show (updateDeclaration _ d (Declaration.addMember child)).parentLink? child = _
  rw [parentLink?_updateDeclaration (g := Declaration.addMember child) fun x => x.mapClass_parent _]
  unfold parentLink?
  rw [declaration?_updateDeclaration, if_pos rfl, hx]
  rfl

/-- `c` is new in `G` and hangs below `d`, which lists `l` besides: `c`, if it is a class -/
structure Hung (d c : DeclarationId) (F G : Forest) (l : List Node) : Prop where
  next : c = ⟨F.declarations.size⟩
  size : G.declarations.size = F.declarations.size + 1
  listed : l = [] ∨ l = [.declaration c]
  children : ∀ a, G.children a = F.children a ++ if a = .declaration d then l else []
  link : G.parentLink? c = some (.declaration d)
  keeps : F.Keeps G

/-- a declaration with nothing below it is made and attached -/
theorem exists_hung (d : DeclarationId) (kind : SymbolKind) (signature : Option Signature)
    (hx : x.content.children = []) : ∃ l,
      Hung d ((F.addSymbol kind signature).2.addDeclaration x).1 F
        (((F.addSymbol kind signature).2.addDeclaration x).2.attach (.declaration d)
          ((F.addSymbol kind signature).2.addDeclaration x).1) l := by
  obtain ⟨l, hl, hattach⟩ := exists_children_attach ((F.addSymbol kind signature).2.addDeclaration x).2 d
    ((F.addSymbol kind signature).2.addDeclaration x).1
  rw [children_addDeclaration F kind signature hx] at hattach
  refine ⟨l, rfl, (size_attach d _).trans (size_addDeclaration x), hl, hattach, parentLink?_attach ?_, ?_⟩
  · rw [declaration?_addDeclaration, if_pos rfl]
    rfl
  · exact (keeps_of_declaration? fun _ _ => declaration?_declare_of_some).trans
      (keeps_setParent.trans keeps_addMember)

namespace Hung

variable {c : DeclarationId} {k : List Node} (h : Hung d c F G k)

include h

theorem isNew : F.declaration? c = none := h.next ▸ F.declaration?_size

theorem nodup : k.Nodup := by
  rcases h.listed with rfl | rfl
  · exact List.nodup_nil
  · exact List.nodup_singleton _

theorem newBelow (hlink : H.parentLink? c = some (.declaration d)) :
    ∀ n ∈ k, F.NewBelow H (.declaration d) n := by
  intro n hn
  rcases h.listed with rfl | rfl
  · exact absurd hn List.not_mem_nil
  · rw [List.mem_singleton.mp hn]
    exact newBelow_of_link h.isNew hlink

/-- the copies of parameters hang below it, and come after it -/
theorem branches_copySignature (owner : Declaration) {f : FunctionInfo} (hC : F.ChildrenKnown)
    (hd : (F.declaration? d).isSome) (hr : F.Retains (G.copySignature owner f c))
    (htypes : ∀ t ∈ f.typeParameters, F.HasTypeParameter t)
    (hparameters : ∀ q ∈ f.parameters, F.HasParameter q) : F.Branches (G.copySignature owner f c) := by
  have hne : Node.declaration c ≠ .declaration d := by
    intro e
    rw [← Node.declaration.inj e, h.isNew] at hd
    cases hd
  obtain ⟨slots, hnodup, hslots, hother, hfresh, hkept⟩ := exists_laid_copySignature owner
    (by rw [h.children, if_neg hne, List.append_nil]; exact children_eq_nil h.isNew)
    (fun t ht => h.keeps.typeParameter t (htypes t ht))
    fun q hq => h.keeps.parameter q (hparameters q hq)
  have hafter : ∀ b ∈ slots, F.declarations.size < b.index := fun b hb => by
    have hge := (hfresh b hb).1
    rwa [h.size] at hge
  refine hC.branches_of_two hr (u := .declaration d) (l := k) (v := .declaration c)
    (k := slots.map .declaration) (fun a => ?_) h.nodup (hnodup.map fun _ _ => Node.declaration.inj)
    (fun n hn hmem => ?_) (h.newBelow ((hkept c (isSome_of_parentLink? h.link)).trans h.link))
    fun n hn => ?_
  · by_cases ha : a = .declaration c
    · subst ha
      exact ⟨[], List.nil_sublist _, by rw [hslots, if_neg hne, if_pos rfl]; rfl⟩
    · exact ⟨F.children a, List.Sublist.refl _, by rw [hother a ha, h.children, if_neg ha]⟩
  · obtain ⟨b, hb, rfl⟩ := List.mem_map.mp hmem
    rcases h.listed with rfl | rfl
    · exact absurd hn List.not_mem_nil
    · have hlt := hafter b hb
      rw [Node.declaration.inj (List.mem_singleton.mp hn), h.next] at hlt
      exact absurd hlt (Nat.lt_irrefl _)
  · obtain ⟨b, hb, rfl⟩ := List.mem_map.mp hn
    refine newBelow_of_link ?_ (hfresh b hb).2
    simpa [declaration?] using Nat.le_of_lt (hafter b hb)

end Hung

/-- an initializer hangs below its class -/
theorem branches_newInitializer {origin : Origin} (hC : F.ChildrenKnown)
    (hr : F.Retains (F.newInitializer d origin).2) : F.Branches (F.newInitializer d origin).2 := by
  obtain ⟨k, h⟩ : ∃ k, Hung d (F.newInitializer d origin).1 F (F.newInitializer d origin).2 k :=
    exists_hung d _ _ rfl
  exact hC.branches_of_one hr (fun a => ⟨F.children a, List.Sublist.refl _, h.children a⟩) h.nodup
    (h.newBelow h.link)

/-- a copied member hangs below its class, and its parameters below the member -/
theorem branches_copyMember {m : DeclarationId} (hC : F.ChildrenKnown)
    (hr : F.Retains (F.copyMember d m).2)
    (hm : ∀ f, F.function? m = some f → (∀ t ∈ f.typeParameters, F.HasTypeParameter t)
      ∧ ∀ q ∈ f.parameters, F.HasParameter q) : F.Branches (F.copyMember d m).2 := by
  unfold copyMember at hr ⊢
  split at hr
  · rename_i owner source f ho _ hf
    obtain ⟨htypes, hparameters⟩ := hm f hf
    obtain ⟨k, h⟩ := exists_hung (F := F) d .function (F.memberSignature owner source.name)
      (x := ⟨_, source.name, .unimplemented, none, owner.span, .ofFunction (emptyCopy f source.symbol)⟩)
      rfl
    exact h.branches_copySignature owner hC (Option.isSome_iff_exists.mpr ⟨owner, ho⟩) hr htypes
      hparameters
  · exact hC.branches_refl

/-- a body of one statement comes last, after some of what was listed -/
theorem exists_children_withBody (F : Forest) (d : DeclarationId) (e : ExpressionId) : ∃ kept l,
    kept.Sublist (F.children (.declaration d)) ∧ (l = [] ∨ l = [Node.expression e])
      ∧ (F.updateDeclaration d (Declaration.withBody [.expression e])).children (.declaration d)
        = kept ++ l := by
  cases hx : F.declaration? d with
  | none =>
    refine ⟨[], [], List.nil_sublist _, .inl rfl, children_eq_nil ?_⟩
    rw [declaration?_updateDeclaration, if_pos rfl, hx]
    rfl
  | some x =>
    rw [children_updateDeclaration hx, children_declaration hx]
    obtain ⟨_, _, _, _, _, content⟩ := x
    cases content with
    | ofFunction f => exact ⟨_, [.expression e], List.sublist_append_left _ _, .inr rfl, rfl⟩
    | ofInitializer body => exact ⟨[], [.expression e], List.nil_sublist _, .inr rfl, rfl⟩
    | _ => exact ⟨_, [], List.Sublist.refl _, .inl rfl, (List.append_nil _).symm⟩

/-! ## calls -/

theorem children_addExpression (x : Expression) (a : Node) :
    (F.addExpression x).2.children a
      = if a = .expression ⟨F.expressions.size⟩ then x.operation.children else F.children a := by
  cases a with
  | declaration b => rfl
  | expression e =>
    show _ = if Node.expression e = .expression (F.addExpression x).1 then _ else _
    by_cases he : e = (F.addExpression x).1
    · rw [if_pos (congrArg Node.expression he)]
      exact children_expression ((F.expression?_addExpression x e).trans (if_pos he))
    · rw [if_neg fun h => he (Node.expression.inj h)]
      simp only [children, (F.expression?_addExpression x e).trans (if_neg he)]

theorem children_size : F.children (.expression ⟨F.expressions.size⟩) = [] := by
  simp [children, expression?]

theorem children_callWith (I : Intrinsics) (span : Span) (e : ExpressionId) :
    (I.callWith span e).operation.children = [.expression e] := by
  simp [Intrinsics.callWith, Operation.children, Operation.operands, Access.operands]

/-- the argument of a call is listed by the call alone -/
theorem children_addExpression_messageArgument (I : Intrinsics) (span : Span) (message : String) :
    (F.addExpression (I.messageArgument span message)).2.children = F.children := by
  funext a
  rw [children_addExpression]
  split
  · rename_i e
    rw [e, children_size]
    rfl
  · rfl

theorem not_stores_expression {e : ExpressionId} (h : F.expressions.size ≤ e.index) :
    ¬ F.Stores (.expression e) := by
  simpa [Stores, expression?] using h

end

end Forest

end LinkRepair
