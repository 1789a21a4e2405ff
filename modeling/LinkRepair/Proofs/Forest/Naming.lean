import Mathlib.Data.List.DropRight
import LinkRepair.Proofs.Forest.Built
import LinkRepair.Proofs.Forest.Lineages

/-!
# Signatures name their declarations

A declaration that is made with a signature is found in it again: the signature shows the names from the
file down to the declaration, and its last segments are the last of these names.

* `Declaration.InPlace`               edits that leave symbols, names and parent links alone;
* `Signature.guessName_dottedName`   the last segments of a dotted name;
* `Forest.NamePath`                  the names from the file down to a declaration;
* `Forest.Preserves`                 declarations and symbols stay what and where they are;
* `Forest.Signed`                    a declaration whose signature shows the names on the way to it;
* `declare_spec`, `newProperty_spec` what is declared with a signature is signed;
* `preserves_run`, `signed_run`      what a call keeps, and what it signs;
* `Build.guessName_after`            the names that signatures show, whatever is called later.
-/

namespace LinkRepair

/-! ## edits in place -/

namespace Declaration

/-- an edit that leaves symbol, name and parent link of every declaration as they are -/
def InPlace (g : Declaration → Declaration) : Prop :=
  ∀ x, (g x).symbol = x.symbol ∧ (g x).name = x.name ∧ (g x).parent = x.parent

theorem inPlace_mapClass (g : ClassInfo → ClassInfo) : InPlace (mapClass g) := fun x => by
  unfold mapClass
  split <;> exact ⟨rfl, rfl, rfl⟩

theorem inPlace_mapFunction (g : FunctionInfo → FunctionInfo) : InPlace (mapFunction g) := fun x => by
  unfold mapFunction
  split <;> exact ⟨rfl, rfl, rfl⟩

theorem inPlace_mapProperty (g : PropertyInfo → PropertyInfo) : InPlace (mapProperty g) := fun x => by
  unfold mapProperty
  split <;> exact ⟨rfl, rfl, rfl⟩

theorem InPlace.comp {g g' : Declaration → Declaration} (hg : InPlace g) (hg' : InPlace g') :
    InPlace fun x => g' (g x) := fun x => by
  obtain ⟨hs, hn, hp⟩ := hg x
  obtain ⟨hs', hn', hp'⟩ := hg' (g x)
  exact ⟨hs'.trans hs, hn'.trans hn, hp'.trans hp⟩

theorem inPlace_addTypeParameter (p : DeclarationId) : InPlace (addTypeParameter p) :=
  (inPlace_mapClass _).comp (inPlace_mapFunction _)

end Declaration

/-! ## dotted names -/

theorem dottedName_singleton (name : String) : dottedName [name] = name := by
  simp [dottedName]

/-- **The last segments of a dotted name**, at least one of them. -/
theorem Signature.guessName_dottedName {s : Signature} {names : List String}
    (hs : s.declaration = dottedName names) (hne : names ≠ [])
    (hnames : ∀ n ∈ names, n ≠ "" ∧ '.' ∉ n.toList) (k : Nat) :
    s.guessName k = some (dottedName (names.rtake (min (max k 1) names.length))) := by
  have hsegments := dottedSegments_dottedName names hne fun n hn => (hnames n hn).2
  have hnonempty : s.declaration ≠ "" := fun e => by
    rw [← hs, e] at hsegments
    exact (hnames "" (hsegments ▸ by decide)).1 rfl
  have hdrop : names.length - min (max k 1) names.length = names.length - max k 1 := by omega
  rw [guessName, if_neg hnonempty, hs, hsegments, List.rtake, hdrop]

namespace Forest

/-! ## paths of names -/

/-- the names from the file down to `d`, whose own name is the last -/
def NamePath (F : Forest) (d : DeclarationId) (names : List String) : Prop :=
  ∃ l f, F.Ascends d l (some f) ∧ names = (l.map F.nameOf).reverse

/-- the names from the file down to where a parent link points -/
def ParentPath (F : Forest) : Parent → List String → Prop
  | .file _, names => names = []
  | .declaration p, names => F.NamePath p names

/-- declarations stay what and where they are, and symbols as they are -/
structure Preserves (F G : Forest) : Prop where
  declaration? : ∀ d x, F.declaration? d = some x → ∃ y, G.declaration? d = some y
    ∧ y.symbol = x.symbol ∧ y.name = x.name ∧ y.parent = x.parent
  symbol? : ∀ s x, F.symbol? s = some x → G.symbol? s = some x

/-- a declaration whose own signature shows the names on the way to it; an accessor has the signature of
its property beside it -/
def Signed (F : Forest) (d : DeclarationId) (names : List String) : Prop :=
  F.NamePath d names ∧ ∃ x y s package, F.declaration? d = some x ∧ F.symbol? x.symbol = some y
    ∧ y.signature = some s ∧ (s = .plain package (dottedName names)
      ∨ ∃ property, s = .accessor property (.plain package (dottedName names)))

section
variable {F G H : Forest} {d p : DeclarationId} {q : Parent} {x : Declaration} {names : List String}

/-- a name path is there for what lies below a file, and is the lineage by names -/
theorem namePath_iff : F.NamePath d names
    ↔ (F.fileOf d).isSome ∧ names = ((F.lineage d).map F.nameOf).reverse := by
  constructor
  · rintro ⟨l, f, hl, rfl⟩
    rw [hl.fileOf_eq, hl.lineage_eq]
    exact ⟨rfl, rfl⟩
  · rintro ⟨hfile, rfl⟩
    obtain ⟨f, hf⟩ := Option.isSome_iff_exists.mp hfile
    rw [fileOf_eq] at hf
    obtain ⟨l, hl, -⟩ := exists_ascends_of_fileWithin hf
    exact ⟨l, f, hl, by rw [hl.lineage_eq]⟩

theorem NamePath.ne_nil (h : F.NamePath d names) : names ≠ [] := by
  obtain ⟨l, f, hl, rfl⟩ := h
  cases hl <;> simp

/-- the last name is the one of the declaration itself -/
theorem NamePath.getLast? (h : F.NamePath d names) : names.getLast? = some (F.nameOf d) := by
  obtain ⟨l, f, hl, rfl⟩ := h
  cases hl <;> simp

theorem namePath_of_parent (hx : F.declaration? d = some x) (hq : x.parent = some q)
    (h : F.ParentPath q names) : F.NamePath d (names ++ [x.name]) := by
  have hname : F.nameOf d = x.name := by rw [nameOf, hx]
  cases q with
  | file f =>
    obtain rfl := h
    exact ⟨[d], f, .file hx hq, by simp [hname]⟩
  | declaration p =>
    obtain ⟨l, f, hl, rfl⟩ := h
    exact ⟨d :: l, f, .up hx hq hl, by simp [hname]⟩

/-- **The qualified name** is made of the names from the file down. -/
theorem ParentPath.qualifiedName_eq (h : F.ParentPath q names) (name : String) :
    F.qualifiedName q name = dottedName (names ++ [name]) := by
  cases q with
  | file f =>
    obtain rfl := h
    rfl
  | declaration p =>
    obtain ⟨l, f, hl, rfl⟩ := h
    rw [qualifiedName, hl.lineage_eq, List.map_reverse]

/-! ## what is preserved -/

namespace Preserves

theorem refl (F : Forest) : F.Preserves F := ⟨fun _ x hx => ⟨x, hx, rfl, rfl, rfl⟩, fun _ _ hx => hx⟩

theorem trans (h : F.Preserves G) (h' : G.Preserves H) : F.Preserves H where
  declaration? := fun d x hx => by
    obtain ⟨y, hy, hs, hn, hp⟩ := h.declaration? d x hx
    obtain ⟨z, hz, hs', hn', hp'⟩ := h'.declaration? d y hy
    exact ⟨z, hz, hs'.trans hs, hn'.trans hn, hp'.trans hp⟩
  symbol? := fun s x hx => h'.symbol? s x (h.symbol? s x hx)

section
variable (h : F.Preserves G)
include h

theorem nameOf (hd : (F.declaration? d).isSome) : G.nameOf d = F.nameOf d := by
  obtain ⟨x, hx⟩ := Option.isSome_iff_exists.mp hd
  obtain ⟨y, hy, _, hn, _⟩ := h.declaration? d x hx
  simp only [Forest.nameOf, hx, hy, hn]

theorem ascends {l : List DeclarationId} {g : Option FileId} (hd : F.Ascends d l g) :
    ∀ f, g = some f → G.Ascends d l (some f) := by
  induction hd with
  | gone | loose => rintro f ⟨⟩
  | @file d x g hx hp =>
    rintro f ⟨⟩
    obtain ⟨y, hy, _, _, hp'⟩ := h.declaration? d x hx
    exact .file hy (hp'.trans hp)
  | @up d a x l g hx hp _ ih =>
    rintro f rfl
    obtain ⟨y, hy, _, _, hp'⟩ := h.declaration? d x hx
    exact .up hy (hp'.trans hp) (ih f rfl)

/-- the way to a declaration stays the same -/
theorem namePath (hd : F.NamePath d names) : G.NamePath d names := by
  obtain ⟨l, f, hl, rfl⟩ := hd
  refine ⟨l, f, h.ascends hl f rfl, ?_⟩
  rw [List.map_congr_left fun a ha => h.nameOf (hl.stored a ha)]

theorem parentPath (hq : F.ParentPath q names) : G.ParentPath q names := by
  cases q with
  | file f => exact hq
  | declaration p => exact h.namePath hq

theorem signed (hd : F.Signed d names) : G.Signed d names := by
  obtain ⟨hpath, x, y, s, package, hx, hy, hs⟩ := hd
  obtain ⟨z, hz, hsymbol, _⟩ := h.declaration? d x hx
  exact ⟨h.namePath hpath, z, y, s, package, hz, hsymbol ▸ h.symbol? _ _ hy, hs⟩

end

theorem addSymbol (F : Forest) (kind : SymbolKind) (signature : Option Signature) :
    F.Preserves (F.addSymbol kind signature).2 where
  declaration? := fun _ x hx => ⟨x, hx, rfl, rfl, rfl⟩
  symbol? := fun s x hx => by
    rw [symbol?_addSymbol, if_neg (ne_addSymbol hx), hx]

/-- a declaration with a symbol of its own -/
theorem declare (F : Forest) (kind : SymbolKind) (signature : Option Signature) {x : Declaration}
    (hs : x.symbol = (F.addSymbol kind signature).1) :
    F.Preserves ((F.addSymbol kind signature).2.addDeclaration x).2 where
  declaration? := fun _ y hy => ⟨y, declaration?_declare_of_some hy, rfl, rfl, rfl⟩
  symbol? := fun _ _ => symbol?_declare_of_some hs

/-- an edit that leaves symbol, name and parent link as they are -/
theorem update {o : DeclarationId} {g : Declaration → Declaration}
    (hg : ∀ x, F.declaration? o = some x →
      (g x).symbol = x.symbol ∧ (g x).name = x.name ∧ (g x).parent = x.parent) :
    F.Preserves (F.updateDeclaration o g) where
  declaration? := fun d x hx => by
    rw [declaration?_updateDeclaration, hx]
    split
    · rename_i e
      exact ⟨g x, rfl, hg x (e ▸ hx)⟩
    · exact ⟨x, rfl, rfl, rfl, rfl⟩
  symbol? := fun _ _ hx => hx

theorem edit {o : DeclarationId} {g : Declaration → Declaration} (hg : Declaration.InPlace g) :
    F.Preserves (F.updateDeclaration o g) := update fun x _ => hg x

/-- a declaration becomes a member where its link points already -/
theorem attach (hx : F.declaration? d = some x) (hq : x.parent = some q) :
    F.Preserves (F.attach q d) := by
  have hlink : F.Preserves (F.updateDeclaration d fun y => { y with parent := some q }) :=
    update fun y hy => ⟨rfl, rfl, by rw [Option.some.inj (hy.symm.trans hx), hq]⟩
  cases q with
  | file f => exact hlink.trans ⟨fun _ y hy => ⟨y, hy, rfl, rfl, rfl⟩, fun _ _ hy => hy⟩
  | declaration p => exact hlink.trans (edit (Declaration.inPlace_mapClass _))

end Preserves

/-! ## new declarations -/

section
variable {kind : SymbolKind} {signature : Option Signature}

/-- a declaration with a symbol of its own is below what its link points at -/
theorem ParentPath.declare (hq : F.ParentPath q names) (hs : x.symbol = (F.addSymbol kind signature).1)
    (hp : x.parent = some q) : ((F.addSymbol kind signature).2.addDeclaration x).2.NamePath
      ⟨F.declarations.size⟩ (names ++ [x.name]) := by
  refine namePath_of_parent ?_ hp ((Preserves.declare F kind signature hs).parentPath hq)
  rw [Recorded.declaration?_declare, if_pos rfl]

/-- the symbol of a declaration that has one of its own -/
theorem symbol?_declare (hs : x.symbol = (F.addSymbol kind signature).1) :
    ((F.addSymbol kind signature).2.addDeclaration x).2.symbol? ⟨F.symbols.size⟩
      = some ⟨kind, signature, some ⟨F.declarations.size⟩⟩ := by
  rw [symbol?_addDeclaration, if_pos (show x.symbol = ⟨F.symbols.size⟩ from hs), symbol?_addSymbol]
  exact congrArg (Option.map _) (if_pos rfl)

/-- **What is declared with a signature is signed**, if the signature shows the names on the way to it. -/
theorem signed_declare {s : Signature} (package : String) (hs : x.symbol = (F.addSymbol kind (some s)).1)
    (hpath : ((F.addSymbol kind (some s)).2.addDeclaration x).2.NamePath ⟨F.declarations.size⟩ names)
    (hown : s = .plain package (dottedName names)
      ∨ ∃ property, s = .accessor property (.plain package (dottedName names))) :
    ((F.addSymbol kind (some s)).2.addDeclaration x).2.Signed ⟨F.declarations.size⟩ names := by
  refine ⟨hpath, x, ⟨kind, some s, some ⟨F.declarations.size⟩⟩, s, package, ?_, ?_, rfl, hown⟩
  · rw [Recorded.declaration?_declare, if_pos rfl]
  · rw [hs]
    exact symbol?_declare hs

end

/-- **A declaration with a signature** is signed by the names around it and its own. -/
theorem declare_spec (F : Forest) (package : String) (q : Parent) (kind : SymbolKind) (name : String)
    (origin : Origin) (content : Content) :
    F.Preserves (F.declare package q kind name origin content).2
      ∧ (F.declare package q kind name origin content).2.symbol? ⟨F.symbols.size⟩
        = some ⟨kind, some (.plain package (F.qualifiedName q name)), some ⟨F.declarations.size⟩⟩
      ∧ ∀ names, F.ParentPath q names →
        (F.declare package q kind name origin content).2.Signed ⟨F.declarations.size⟩ (names ++ [name]) := by
  obtain ⟨s, hsignature⟩ : ∃ s, s = Signature.plain package (F.qualifiedName q name) := ⟨_, rfl⟩
  obtain ⟨x, hx⟩ : ∃ x : Declaration,
      x = ⟨(F.addSymbol kind (some s)).1, name, origin, some q, .undefined, content⟩ := ⟨_, rfl⟩
  have hs : x.symbol = (F.addSymbol kind (some s)).1 := by rw [hx]
  have hp : x.parent = some q := by rw [hx]
  have hname : x.name = name := by rw [hx]
  obtain ⟨M, hM⟩ : ∃ M, M = ((F.addSymbol kind (some s)).2.addDeclaration x).2 := ⟨_, rfl⟩
  have hresult : (F.declare package q kind name origin content).2 = M.attach q ⟨F.declarations.size⟩ := by
    rw [hM, hx, hsignature]
    rfl
  have hmade : F.Preserves M := hM ▸ .declare F kind (some s) hs
  have hattach : M.Preserves (M.attach q ⟨F.declarations.size⟩) := by
    refine .attach (x := x) ?_ hp
    rw [hM, Recorded.declaration?_declare, if_pos rfl]
  rw [hresult, ← hsignature]
  refine ⟨hmade.trans hattach, hattach.symbol? _ _ (hM ▸ symbol?_declare hs), fun names hq => ?_⟩
  have hpath := hq.declare hs hp
  rw [hname] at hpath
  refine hattach.signed (hM ▸ signed_declare package hs hpath (.inl ?_))
  rw [hsignature, hq.qualifiedName_eq]

/-- a declaration without a signature has a name below the one that it was made for -/
theorem declareLocal_spec (F : Forest) (o : DeclarationId) (kind : SymbolKind) (name : String)
    (content : Content) : F.Preserves (F.declareLocal o kind name content).2
      ∧ ∀ names, F.NamePath o names →
        (F.declareLocal o kind name content).2.NamePath ⟨F.declarations.size⟩ (names ++ [name]) :=
  ⟨.declare F kind none rfl, fun _ ho => ParentPath.declare (q := .declaration o) ho rfl rfl⟩

/-- **A property and its getter** are signed by the names around the property and their own. -/
theorem newProperty_spec (F : Forest) (package : String) (q : Parent) (name : String) (type : TypeRef)
    (isMutable : Bool) :
    F.Preserves (F.newProperty package q name type isMutable).2
      ∧ ∀ names, F.ParentPath q names →
        (F.newProperty package q name type isMutable).2.Signed ⟨F.declarations.size⟩ (names ++ [name])
        ∧ (F.newProperty package q name type isMutable).2.NamePath ⟨F.declarations.size + 1⟩
          (names ++ [name, name])
        ∧ (F.newProperty package q name type isMutable).2.Signed ⟨F.declarations.size + 2⟩
          (names ++ [name, getterName name]) := by
  obtain ⟨G, K, L, hG, hsize, hK, hsize', hL, hresult⟩ := F.exists_newProperty package q name type isMutable
  obtain ⟨hmade, hsymbol, hsigned⟩ := declare_spec F package q .property name .defined
    (.ofProperty { PropertyInfo.blank with isMutable := isMutable })
  rw [← hG] at hmade hsymbol hsigned
  obtain ⟨hfield, hfieldPath⟩ : G.Preserves K ∧ ∀ names, G.NamePath ⟨F.declarations.size⟩ names →
      K.NamePath ⟨F.declarations.size + 1⟩ (names ++ [name]) := by
    rw [hK, ← hsize]
    exact declareLocal_spec G ⟨F.declarations.size⟩ .field name _
  obtain ⟨hgetter, hgetterSigned⟩ : K.Preserves L ∧
      ∀ names, K.ParentPath (.declaration ⟨F.declarations.size⟩) names →
        L.Signed ⟨F.declarations.size + 2⟩ (names ++ [getterName name]) := by
    rw [hL, newGetter, hfield.symbol? _ _ hsymbol, Option.bind_some, Option.map_some, ← hsize']
    refine ⟨.declare K .function _ rfl, fun names hq => signed_declare package rfl (hq.declare rfl rfl)
      (.inr ⟨.plain package (F.qualifiedName q name), ?_⟩)⟩
    rw [hq.qualifiedName_eq]
  have hlink : L.Preserves (F.newProperty package q name type isMutable).2 := by
    rw [hresult]
    exact .edit (Declaration.inPlace_mapProperty _)
  refine ⟨hmade.trans (hfield.trans (hgetter.trans hlink)), fun names hq => ?_⟩
  have hproperty := hsigned names hq
  have hbelow := fun own : String => List.append_assoc names [name] [own]
  refine ⟨hlink.signed (hgetter.signed (hfield.signed hproperty)), ?_, ?_⟩
  · exact hbelow name ▸ hlink.namePath (hgetter.namePath (hfieldPath _ hproperty.1))
  · exact hbelow (getterName name) ▸ hlink.signed (hgetterSigned _ (hfield.namePath hproperty.1))

end

end Forest

/-! ## calls -/

namespace BuildStep

/-- what a call declares something for -/
def parent? : BuildStep → Option Parent
  | .ofClass _ q _ _ | .function _ q _ _ | .standIn _ q _ _ _ | .field _ q _ _ | .property _ q _ _ _ => some q
  | .enumEntry _ a _ | .constructor _ a | .valueParameter a _ _ | .extensionReceiver a _
  | .dispatchReceiver a _ | .typeParameter a _ _ | .localVariable a _ _ _ => some (.declaration a)
  | .file .. | .superType .. | .body .. | .missingSymbol .. | .expression .. => none

/-- what a call declares with a signature, with the names below its parent -/
def signs (F : Forest) : BuildStep → List (DeclarationId × List String)
  | .ofClass _ _ name _ | .enumEntry _ _ name | .function _ _ name _ | .standIn _ _ _ name _
  | .field _ _ name _ => [(⟨F.declarations.size⟩, [name])]
  | .constructor _ _ => [(⟨F.declarations.size⟩, [constructorName])]
  | .property _ _ name _ _ =>
    [(⟨F.declarations.size⟩, [name]), (⟨F.declarations.size + 2⟩, [name, getterName name])]
  | _ => []

end BuildStep

namespace Forest

/-- **Every call leaves declarations and symbols** what and where they are. -/
theorem preserves_run (F : Forest) (c : BuildStep) : F.Preserves (c.run F) := by
  cases c with
  | file package path source => exact ⟨fun _ x hx => ⟨x, hx, rfl, rfl, rfl⟩, fun _ _ hx => hx⟩
  | ofClass | enumEntry | function | standIn | field => exact (declare_spec F _ _ _ _ _ _).1
  | superType => exact .edit (Declaration.inPlace_mapClass _)
  | constructor package a =>
    cases ht : F.typeOf a with
    | none => simpa only [BuildStep.run, ht] using Preserves.refl F
    | some type =>
      simp only [BuildStep.run, ht]
      exact (declare_spec F _ _ _ _ _ _).1
  | valueParameter | extensionReceiver | dispatchReceiver =>
    exact (declareLocal_spec F _ _ _ _).1.trans (.edit (Declaration.inPlace_mapFunction _))
  | typeParameter =>
    exact (declareLocal_spec F _ _ _ _).1.trans (.edit (Declaration.inPlace_addTypeParameter _))
  | localVariable => exact (declareLocal_spec F _ _ _ _).1
  | body => exact .edit (Declaration.inPlace_mapFunction _)
  | property => exact (newProperty_spec F _ _ _ _ _).1
  | missingSymbol => exact .addSymbol F _ _
  | expression => exact ⟨fun _ x hx => ⟨x, hx, rfl, rfl, rfl⟩, fun _ _ hx => hx⟩

/-- **What a call declares** has a name below the one that it is declared for. -/
theorem exists_namePath_run {F : Forest} {c : BuildStep} {q p : Parent} {d : DeclarationId}
    {names : List String} (hc : c.parent? = some q) (hq : F.ParentPath q names)
    (hd : (d, p) ∈ c.declares F) : ∃ names', (c.run F).NamePath d names' := by
  cases c with
  | file | superType | body | missingSymbol | expression => cases hc
  | ofClass | enumEntry | function | standIn | field =>
    obtain rfl := Option.some.inj hc
    obtain ⟨rfl, -⟩ := Prod.mk.inj (List.mem_singleton.mp hd)
    exact ⟨_, ((declare_spec F _ _ _ _ _ _).2.2 _ hq).1⟩
  | constructor package a =>
    obtain rfl := Option.some.inj hc
    cases ht : F.typeOf a with
    | none => simp [BuildStep.declares, ht] at hd
    | some type =>
      simp only [BuildStep.declares, ht] at hd
      obtain ⟨rfl, -⟩ := Prod.mk.inj (List.mem_singleton.mp hd)
      simp only [BuildStep.run, ht]
      exact ⟨_, ((declare_spec F _ _ _ _ _ _).2.2 _ hq).1⟩
  | valueParameter | extensionReceiver | dispatchReceiver =>
    obtain rfl := Option.some.inj hc
    obtain ⟨rfl, -⟩ := Prod.mk.inj (List.mem_singleton.mp hd)
    exact ⟨_, (Preserves.edit (Declaration.inPlace_mapFunction _)).namePath
      ((declareLocal_spec F _ _ _ _).2 _ hq)⟩
  | typeParameter =>
    obtain rfl := Option.some.inj hc
    obtain ⟨rfl, -⟩ := Prod.mk.inj (List.mem_singleton.mp hd)
    exact ⟨_, (Preserves.edit (Declaration.inPlace_addTypeParameter _)).namePath
      ((declareLocal_spec F _ _ _ _).2 _ hq)⟩
  | localVariable =>
    obtain rfl := Option.some.inj hc
    obtain ⟨rfl, -⟩ := Prod.mk.inj (List.mem_singleton.mp hd)
    exact ⟨_, (declareLocal_spec F _ _ _ _).2 _ hq⟩
  | property =>
    obtain rfl := Option.some.inj hc
    obtain ⟨hproperty, hfield, hgetter⟩ := (newProperty_spec F _ _ _ _ _).2 _ hq
    simp only [BuildStep.declares, List.mem_cons, List.not_mem_nil, or_false, Prod.mk.injEq] at hd
    obtain ⟨rfl, -⟩ | ⟨rfl, -⟩ | ⟨rfl, -⟩ := hd
    · exact ⟨_, hproperty.1⟩
    · exact ⟨_, hfield⟩
    · exact ⟨_, hgetter.1⟩

/-- **What a call declares with a signature** is signed by the names around it and its own. -/
theorem signed_run {F : Forest} {c : BuildStep} {q : Parent} {d : DeclarationId}
    {names own : List String} (hc : c.parent? = some q) (hq : F.ParentPath q names)
    (hd : (d, own) ∈ c.signs F) : (c.run F).Signed d (names ++ own) := by
  cases c with
  | file | superType | body | missingSymbol | expression => cases hc
  | valueParameter | extensionReceiver | dispatchReceiver | typeParameter | localVariable => cases hd
  | ofClass | enumEntry | function | standIn | field =>
    obtain rfl := Option.some.inj hc
    obtain ⟨rfl, rfl⟩ := Prod.mk.inj (List.mem_singleton.mp hd)
    exact (declare_spec F _ _ _ _ _ _).2.2 _ hq
  | constructor package a =>
    obtain rfl := Option.some.inj hc
    obtain ⟨rfl, rfl⟩ := Prod.mk.inj (List.mem_singleton.mp hd)
    cases ht : F.typeOf a with
    | none =>
      obtain ⟨l, f, hl, -⟩ := (hq : F.NamePath a names)
      cases hl with
      | file hx | up hx => simp [typeOf, hx] at ht
    | some type =>
      simp only [BuildStep.run, ht]
      exact (declare_spec F _ _ _ _ _ _).2.2 _ hq
  | property =>
    obtain rfl := Option.some.inj hc
    obtain ⟨hproperty, -, hgetter⟩ := (newProperty_spec F _ _ _ _ _).2 _ hq
    simp only [BuildStep.signs, List.mem_cons, List.not_mem_nil, or_false, Prod.mk.injEq] at hd
    obtain ⟨rfl, rfl⟩ | ⟨rfl, rfl⟩ := hd
    · exact hproperty
    · exact hgetter

end Forest

namespace Build

theorem preserves_after (b : Build) (steps : List BuildStep) :
    b.forest.Preserves (b.after steps).forest := by
  induction steps generalizing b with
  | nil => exact .refl b.forest
  | cons c rest ih => exact (Forest.preserves_run b.forest c).trans (ih (b.next c))

/-- **Signatures name their declarations**, whatever is called later.  What a call declares below a file
stays there, so that what is declared in it later is below that file too; and a declaration that the call
signs shows the names from the file down to it, of which the last ones are guessed. -/
theorem guessName_after (b : Build) (c : BuildStep) (rest : List BuildStep) {q : Parent}
    {around : List String} (hc : c.parent? = some q) (hq : b.forest.ParentPath q around) :
    (∀ d p, (d, p) ∈ c.declares b.forest → ∃ names, (b.after (c :: rest)).forest.NamePath d names) ∧
    ∀ d own, (d, own) ∈ c.signs b.forest → ∀ names, names = around ++ own →
      (b.after (c :: rest)).forest.NamePath d names ∧ ∃ x y s package,
        (b.after (c :: rest)).forest.declaration? d = some x ∧ names.getLast? = some x.name
        ∧ (b.after (c :: rest)).forest.symbol? x.symbol = some y ∧ y.signature = some s
        ∧ (s = .plain package (dottedName names)
          ∨ ∃ property, s = .accessor property (.plain package (dottedName names)))
        ∧ ((∀ n ∈ names, n ≠ "" ∧ '.' ∉ n.toList) →
          (∀ k, s.guessName k = some (dottedName (names.rtake (min (max k 1) names.length))))
          ∧ s.guessName 1 = some x.name
          ∧ ∀ k, names.length ≤ k → s.guessName k = some (dottedName names)) := by
  have hkeeps := preserves_after (b.next c) rest
  refine ⟨fun d p hd => ?_, ?_⟩
  · obtain ⟨names, hpath⟩ := Forest.exists_namePath_run hc hq hd
    exact ⟨names, hkeeps.namePath hpath⟩
  rintro d own hd names rfl
  obtain ⟨hpath, x, y, s, package, hx, hy, hs, hown⟩ := hkeeps.signed (Forest.signed_run hc hq hd)
  have hlast : (around ++ own).getLast? = some x.name := by
    rw [hpath.getLast?, Forest.nameOf, show Forest.declaration? _ d = some x from hx]
  have hshows : s.declaration = dottedName (around ++ own) := by
    obtain rfl | ⟨property, rfl⟩ := hown <;> rfl
  refine ⟨hpath, x, y, s, package, hx, hlast, hy, hs, hown, fun hnames => ?_⟩
  have hguess := Signature.guessName_dottedName hshows hpath.ne_nil hnames
  have hlength := List.length_pos_of_ne_nil hpath.ne_nil
  refine ⟨hguess, ?_, fun k hk => ?_⟩
  · have hone : (around ++ own).rtake 1 = [x.name] := by
      rw [← List.dropLast_concat_getLast hpath.ne_nil, List.rtake_concat_succ, List.rtake_zero,
        List.nil_append, Option.some.inj ((List.getLast?_eq_some_getLast hpath.ne_nil).symm.trans hlast)]
    rw [hguess, Nat.max_self, Nat.min_eq_left hlength, hone, dottedName_singleton]
  · rw [hguess, Nat.min_eq_right (by omega), List.rtake, Nat.sub_self, List.drop_zero]

/-- a property of a local class -/
theorem guessName_localProperty : ((start "m").after localClass).forest.NamePath ⟨14⟩ ["A", "f", "L"]
    ∧ ∃ x y s, (((start "m").after localClass).after
        [.property "p" (.declaration ⟨14⟩) "w" (.simple ⟨2⟩) true]).forest.declaration? ⟨17⟩ = some x
      ∧ (((start "m").after localClass).after
        [.property "p" (.declaration ⟨14⟩) "w" (.simple ⟨2⟩) true]).forest.symbol? x.symbol = some y
      ∧ y.signature = some s ∧ s.guessName 0 = some "<get-w>" ∧ s.guessName 3 = some "L.w.<get-w>"
      ∧ s.guessName 9 = some "A.f.L.w.<get-w>" := by
  have hpath : ((start "m").after localClass).forest.NamePath ⟨14⟩ ["A", "f", "L"] :=
    Forest.namePath_iff.mpr (by decide +kernel)
  have hsize : ((start "m").after localClass).forest.declarations.size = 15 := by decide +kernel
  obtain ⟨-, hsigned⟩ := guessName_after ((start "m").after localClass)
    (.property "p" (.declaration ⟨14⟩) "w" (.simple ⟨2⟩) true) [] (q := .declaration ⟨14⟩) rfl hpath
  obtain ⟨-, x, y, s, package, hx, -, hy, hs, -, hguess⟩ := hsigned ⟨17⟩ ["w", "<get-w>"]
    (by simp [BuildStep.signs, hsize, getterName]) _ rfl
  obtain ⟨hlast, hown, hwhole⟩ := hguess (by decide)
  exact ⟨hpath, x, y, s, hx, hy, hs, hlast 0, hlast 3, hwhole 9 (by decide)⟩

end Build

end LinkRepair
