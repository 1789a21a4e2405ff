import LinkRepair.Forest.Intrinsics
import LinkRepair.Proofs.Forest.Branches
import LinkRepair.Proofs.Repair.Growth

/-!
# Forests that are built

A forest is built call by call, from the one that holds the intrinsic file only.  Most declarations
are listed by their file or by the declaration around them as soon as they are made; local ones,
and expressions, are placed by a later call.

* `BuildStep`                        the calls;
* `Build`                            the forest so far, with a record of what was declared and placed;
* `Content.listed`, `Content.held`   what a declaration lists by itself, and what was placed in it;
* `Build.Admits`                     calls that place only what is there, and nothing that is listed;
* `Under`                            the closest declaration above what was placed;
* `Forest.Recorded`                  every link of the forest agrees with the record;
* `Recorded.rooted`                  if each node was placed once, where it belongs, the forest is
  rooted.
-/

namespace LinkRepair

/-! ## what a declaration lists -/

namespace Content

/-- the declarations that are listed as they are made -/
def listed : Content → List DeclarationId
  | .ofClass c => c.typeParameters ++ c.members
  | .ofFunction f =>
    f.typeParameters ++ f.dispatchReceiver.toList ++ f.extensionReceiver.toList ++ f.valueParameters
  | .ofProperty p => p.field.toList ++ p.getter.toList ++ p.setter.toList
  | .ofEnumEntry e => e.class?.toList
  | _ => []

/-- the nodes that were placed: in a body, or as the expression of a value -/
def held : Content → List Node
  | .ofFunction f => (f.body.getD []).map Statement.node
  | .ofField f => f.initializer.toList.map .expression
  | .ofVariable v => v.initializer.toList.map .expression
  | .ofParameter p => p.default.toList.map .expression
  | .ofEnumEntry e => e.initializer.toList.map .expression
  | .ofInitializer body => body.map Statement.node
  | _ => []

theorem children_eq (c : Content) : c.children = c.listed.map .declaration ++ c.held := by
  cases c <;> simp [children, listed, held]

end Content

namespace Forest

/-- what a declaration lists -/
def listed (F : Forest) (a : DeclarationId) : List DeclarationId :=
  ((F.declaration? a).map fun x => x.content.listed).getD []

/-- what was placed in a node -/
def held (F : Forest) : Node → List Node
  | .declaration a => ((F.declaration? a).map fun x => x.content.held).getD []
  | .expression e => F.children (.expression e)

/-- all that is listed, by a file or by a declaration -/
def listings (F : Forest) : List DeclarationId :=
  F.tops F.fileRoots ++ F.declarationIds.flatMap F.listed

/-- the declarations, each with its parent link -/
def links (F : Forest) : List (DeclarationId × Parent) :=
  F.declarationIds.filterMap fun d => (F.parentLink? d).map fun q => (d, q)

section
variable {F : Forest} {a d : DeclarationId} {n : Node}

theorem listed_eq {x : Declaration} (h : F.declaration? a = some x) :
    F.listed a = x.content.listed := by
  simp [listed, h]

theorem held_eq {x : Declaration} (h : F.declaration? a = some x) :
    F.held (.declaration a) = x.content.held := by
  simp [held, h]

theorem children_declaration_eq (F : Forest) (a : DeclarationId) :
    F.children (.declaration a) = (F.listed a).map .declaration ++ F.held (.declaration a) := by
  cases hx : F.declaration? a with
  | none => simp [children, listed, held, hx]
  | some x => simp [children, listed, held, hx, x.content.children_eq]

theorem mem_listings : d ∈ F.listings
    ↔ (∃ f, d ∈ F.rootDeclarations (.file f)) ∨ ∃ a, d ∈ F.listed a := by
  rw [listings, List.mem_append]
  refine or_congr ⟨fun h => ?_, ?_⟩ ⟨fun h => ?_, ?_⟩
  · obtain ⟨root, hroot, hd⟩ := List.mem_flatMap.mp h
    obtain ⟨f, _, rfl⟩ := List.mem_map.mp hroot
    exact ⟨f, hd⟩
  · rintro ⟨f, hd⟩
    exact List.mem_flatMap.mpr ⟨_, List.mem_map_of_mem (mem_fileIds_of_rootDeclarations hd), hd⟩
  · obtain ⟨a, _, hd⟩ := List.mem_flatMap.mp h
    exact ⟨a, hd⟩
  · rintro ⟨a, hd⟩
    refine List.mem_flatMap.mpr ⟨a, mem_declarationIds.mpr ?_, hd⟩
    cases hx : F.declaration? a with
    | none => simp [listed, hx] at hd
    | some x => rfl

instance : DecidablePred F.Stores
  | .declaration d => inferInstanceAs (Decidable ((F.declaration? d).isSome = true))
  | .expression e => inferInstanceAs (Decidable ((F.expression? e).isSome = true))

end

end Forest

/-! ## calls -/

/-- one call of the operations by which a forest is built; a constant is one of the expressions -/
inductive BuildStep where
  | file (package path source : String)
  | ofClass (package : String) (parent : Parent) (name : String) (kind : ClassKind)
  | superType (ofClass : DeclarationId) (type : TypeRef)
  | enumEntry (package : String) (enumClass : DeclarationId) (name : String)
  | function (package : String) (parent : Parent) (name : String) (type : TypeRef)
  | constructor (package : String) (ofClass : DeclarationId)
  | standIn (package : String) (parent : Parent) (kind : SymbolKind) (name : String) (type : TypeRef)
  | valueParameter (function : DeclarationId) (name : String) (type : TypeRef)
  | extensionReceiver (function : DeclarationId) (type : TypeRef)
  | dispatchReceiver (function : DeclarationId) (type : TypeRef)
  | typeParameter (owner : DeclarationId) (name : String) (bounds : List TypeRef)
  | localVariable (function : DeclarationId) (name : String) (type : TypeRef)
      (initializer : Option ExpressionId)
  | body (function : DeclarationId) (statements : List Statement)
  | field (package : String) (parent : Parent) (name : String) (type : TypeRef)
  | property (package : String) (parent : Parent) (name : String) (type : TypeRef) (isMutable : Bool)
  | missingSymbol (package : String) (kind : SymbolKind) (name : String)
  | expression (operation : Operation) (type : TypeRef)

namespace BuildStep

def run (F : Forest) : BuildStep → Forest
  | .file package path source => (F.newFile package path source).2
  | .ofClass package parent name kind => (F.newClass package parent name kind).2
  | .superType c type => F.addSuperType c type
  | .enumEntry package enumClass name => (F.newEnumEntry package enumClass name).2
  | .function package parent name type => (F.newFunction package parent name type).2
  | .constructor package owner =>
    match F.typeOf owner with
    | none => F
    | some type => (F.newConstructor package owner type).2
  | .standIn package parent kind name type => (F.newStandIn package parent kind name type).2
  | .valueParameter owner name type => (F.newValueParameter owner name type).2
  | .extensionReceiver owner type => (F.newExtensionReceiver owner type).2
  | .dispatchReceiver owner type => (F.newDispatchReceiver owner type).2
  | .typeParameter owner name bounds => (F.newTypeParameter owner name bounds).2
  | .localVariable owner name type initializer => (F.newLocalVariable owner name type initializer).2
  | .body owner statements => F.setBody owner statements
  | .field package parent name type => (F.newField package parent name type).2
  | .property package parent name type isMutable => (F.newProperty package parent name type isMutable).2
  | .missingSymbol package kind name => (F.newMissingSymbol package kind name).2
  | .expression operation type => (F.newExpression operation type).2

/-- what a call declares, and for which parent -/
def declares (F : Forest) : BuildStep → List (DeclarationId × Parent)
  | .ofClass _ parent _ _ | .function _ parent _ _ | .standIn _ parent _ _ _ | .field _ parent _ _ =>
    [(⟨F.declarations.size⟩, parent)]
  | .enumEntry _ owner _ | .valueParameter owner _ _ | .extensionReceiver owner _
  | .dispatchReceiver owner _ | .typeParameter owner _ _ | .localVariable owner _ _ _ =>
    [(⟨F.declarations.size⟩, .declaration owner)]
  | .constructor _ owner =>
    (F.typeOf owner).toList.map fun _ => (⟨F.declarations.size⟩, .declaration owner)
  | .property _ parent _ _ _ =>
    let property : DeclarationId := ⟨F.declarations.size⟩
    [(property, parent), (⟨F.declarations.size + 1⟩, .declaration property),
      (⟨F.declarations.size + 2⟩, .declaration property)]
  | .file .. | .superType .. | .body .. | .missingSymbol .. | .expression .. => []

/-- what a call places, and in which node: only functions have a body that can be set -/
def places (F : Forest) : BuildStep → List (Node × Node)
  | .localVariable _ _ _ initializer =>
    initializer.toList.map fun e => (.expression e, .declaration ⟨F.declarations.size⟩)
  | .body owner statements =>
    if (F.function? owner).isSome then statements.map fun s => (s.node, .declaration owner) else []
  | .expression operation _ =>
    operation.children.map fun n => (n, .expression ⟨F.expressions.size⟩)
  | _ => []

end BuildStep

/-- a forest under construction -/
structure Build where
  forest : Forest
  /-- every declaration, with the parent for which it was made -/
  declared : List (DeclarationId × Parent)
  /-- every node that was placed, with the one in which it was -/
  placed : List (Node × Node)

/-- the closest declaration above a node, by what was placed -/
inductive Under (placed : List (Node × Node)) : Node → DeclarationId → Prop
  | inside {n : Node} {p : DeclarationId} (h : (n, .declaration p) ∈ placed) : Under placed n p
  | through {n : Node} {e : ExpressionId} {p : DeclarationId} (h : (n, .expression e) ∈ placed)
      (he : Under placed (.expression e) p) : Under placed n p

namespace Build

/-- nothing but the intrinsic file -/
def start (name : String) : Build :=
  let F := (Forest.named name).installIntrinsics.2
  ⟨F, F.links, []⟩

def next (b : Build) (c : BuildStep) : Build :=
  ⟨c.run b.forest, b.declared ++ c.declares b.forest, b.placed ++ c.places b.forest⟩

def after (b : Build) (steps : List BuildStep) : Build := steps.foldl next b

/-- what is placed was made by an earlier call, and is listed nowhere -/
def Admits (b : Build) : List BuildStep → Prop
  | [] => True
  | c :: rest => (∀ h ∈ c.places b.forest, b.forest.Stores h.1
      ∧ h.1 ∉ b.forest.listings.map Node.declaration) ∧ (b.next c).Admits rest

instance : ∀ (steps : List BuildStep) (b : Build), Decidable (b.Admits steps)
  | [], _ => .isTrue trivial
  | c :: rest, b =>
    have := instDecidableAdmits rest (b.next c)
    inferInstanceAs (Decidable (_ ∧ _))

end Build

/-! ## the forest and its record -/

namespace Forest

/-- every link of the forest agrees with the record, and nothing is both listed and placed -/
structure Recorded (F : Forest) (declared : List (DeclarationId × Parent))
    (placed : List (Node × Node)) : Prop where
  declared : ∀ d, (F.declaration? d).isSome → ∃ q, (d, q) ∈ declared ∧ F.parentLink? d = some q
  owner : ∀ d, (F.declaration? d).isSome → F.symbolOwner? d = some d
  top : ∀ f d, d ∈ F.rootDeclarations (.file f) → F.parentLink? d = some (.file f)
  top_nodup : ∀ f, (F.rootDeclarations (.file f)).Nodup
  listed : ∀ a d, d ∈ F.listed a → F.parentLink? d = some (.declaration a)
  listed_nodup : ∀ a, (F.listed a).Nodup
  held : ∀ a n, (F.held a).count n ≤ placed.count (n, a)
  known : ∀ n a, (n, a) ∈ placed → F.Stores n
  apart : ∀ d a, (.declaration d, a) ∈ placed → d ∉ F.listings

namespace Recorded

section
variable {F : Forest} {D : List (DeclarationId × Parent)} {P : List (Node × Node)} {a n : Node}
  (h : F.Recorded D P)
include h

theorem mem_of_held (hn : n ∈ F.held a) : (n, a) ∈ P :=
  List.count_pos_iff.mp (Nat.lt_of_lt_of_le (List.count_pos_iff.mpr hn) (h.held a n))

/-- what is below a node is listed there, or was placed there -/
theorem child_cases (hc : F.Child a n) :
    (∃ b d, a = .declaration b ∧ n = .declaration d ∧ d ∈ F.listed b) ∨ (n, a) ∈ P := by
  cases a with
  | declaration b =>
    rw [Child, children_declaration_eq] at hc
    rcases List.mem_append.mp hc with hc | hc
    · obtain ⟨d, hd, rfl⟩ := List.mem_map.mp hc
      exact .inl ⟨b, d, rfl, rfl, hd⟩
    · exact .inr (h.mem_of_held hc)
  | expression e => exact .inr (h.mem_of_held hc)

theorem link_of_top {d : DeclarationId} (hd : d ∈ F.tops F.fileRoots) :
    ∃ f, F.parentLink? d = some (.file f) ∧ d ∈ F.listings := by
  obtain ⟨root, hroot, hd⟩ := List.mem_flatMap.mp hd
  obtain ⟨f, _, rfl⟩ := List.mem_map.mp hroot
  exact ⟨f, h.top f d hd, mem_listings.mpr (.inl ⟨f, hd⟩)⟩

theorem stores_of_reached (hn : F.Reached n) : F.Stores n := by
  obtain ⟨d, hd, hreach⟩ := hn
  rcases Relation.ReflTransGen.cases_tail hreach with rfl | ⟨b, _, hc⟩
  · obtain ⟨f, hf, _⟩ := h.link_of_top hd
    exact isSome_of_parentLink? hf
  · rcases h.child_cases hc with ⟨b, d, _, rfl, hd⟩ | hp
    · exact isSome_of_parentLink? (h.listed b d hd)
    · exact h.known n b hp

/-- an expression that is reached is placed below a declaration -/
theorem under_of_placed {p : Placement} (hp : F.Placed p) : ∀ e, p.node = .expression e →
    ∃ d, p.container = .declaration d ∧ Under P (.expression e) d := by
  induction hp with
  | top hp =>
    rintro e he
    obtain ⟨f, _, d, _, rfl⟩ := mem_topPlacements.mp hp
    cases he
  | @inside p q _ hp ih =>
    rintro e he
    obtain ⟨hc, hcontainer⟩ := mem_placementsBelow.mp hp
    rw [he] at hc
    have hplaced : (.expression e, q.node) ∈ P := by
      rcases h.child_cases hc with ⟨_, _, _, hd, _⟩ | hp
      · cases hd
      · exact hp
    rcases hcontainer with ⟨d, hd, hdc⟩ | ⟨e', he', hdc⟩
    · exact ⟨d, hdc, .inside (hd ▸ hplaced)⟩
    · obtain ⟨d, hd, hunder⟩ := ih e' he'
      exact ⟨d, hdc.trans hd, .through (he' ▸ hplaced) hunder⟩

/-- **If each node was placed once, where it belongs, the forest is rooted.** -/
theorem rooted (honce : (P.map Prod.fst).Nodup)
    (hunder : ∀ d q p, (d, q) ∈ D → Under P (.declaration d) p → q = .declaration p) : F.Rooted where
  tops_nodup := by
    refine List.nodup_flatMap.mpr ⟨fun root hroot => ?_, ?_⟩
    · obtain ⟨f, _, rfl⟩ := List.mem_map.mp hroot
      exact h.top_nodup f
    · refine List.pairwise_map.mpr ((List.nodup_iff_pairwise_ne.mp nodup_fileIds).imp ?_)
      intro f f' hne d hd hd'
      exact hne (Parent.file.inj (Option.some.inj ((h.top f d hd).symm.trans (h.top f' d hd'))))
  children_nodup := fun a _ => by
    have hheld : (F.held a).Nodup := List.nodup_iff_count_le_one.mpr fun n =>
      Nat.le_trans (h.held a n) (List.nodup_iff_count_le_one.mp honce.of_map _)
    cases a with
    | expression e => exact hheld
    | declaration b =>
      rw [children_declaration_eq]
      refine List.nodup_append.mpr
        ⟨(h.listed_nodup b).map fun _ _ => Node.declaration.inj, hheld, fun m hm n hn e => ?_⟩
      obtain ⟨d, hd, rfl⟩ := List.mem_map.mp hm
      rw [← e] at hn
      exact h.apart d _ (h.mem_of_held hn) (mem_listings.mpr (.inr ⟨b, hd⟩))
  not_below := fun d a hd _ hc => by
    obtain ⟨f, hf, hlisted⟩ := h.link_of_top hd
    rcases h.child_cases hc with ⟨b, d', _, hd', hb⟩ | hp
    · obtain rfl := Node.declaration.inj hd'
      rw [h.listed b d hb] at hf
      cases hf
    · exact h.apart d a hp hlisted
  container := fun a b n _ _ ha hb => by
    have hlisted : ∀ {b d}, d ∈ F.listed b → ∀ {a}, (.declaration d, a) ∉ P := fun hd _ hp =>
      h.apart _ _ hp (mem_listings.mpr (.inr ⟨_, hd⟩))
    rcases h.child_cases ha with ⟨a, d, rfl, rfl, hda⟩ | ha
    · rcases h.child_cases hb with ⟨b, d', rfl, hd', hdb⟩ | hb
      · obtain rfl := Node.declaration.inj hd'
        exact congrArg Node.declaration (Parent.declaration.inj
          (Option.some.inj ((h.listed a d hda).symm.trans (h.listed b d hdb))))
      · exact absurd hb (hlisted hda)
    · rcases h.child_cases hb with ⟨b, d, rfl, rfl, hdb⟩ | hb
      · exact absurd ha (hlisted hdb)
      · exact congrArg Prod.snd (List.inj_on_of_nodup_map honce ha hb rfl)
  owner := fun d hd => h.owner d (h.stores_of_reached hd)
  link := fun p d hp hd => by
    have hstores : F.Stores (.declaration d) := hd ▸ h.stores_of_reached hp.reached
    cases hp with
    | top hp =>
      obtain ⟨f, _, b, hb, rfl⟩ := mem_topPlacements.mp hp
      obtain rfl := Node.declaration.inj hd
      exact h.top f b hb
    | @inside _ q hq hp =>
      obtain ⟨hc, hcontainer⟩ := mem_placementsBelow.mp hp
      rw [hd] at hc
      rcases h.child_cases hc with ⟨b, d', hb, hd', hlisted⟩ | hplaced
      · obtain rfl := Node.declaration.inj hd'
        rcases hcontainer with ⟨b', hb', e⟩ | ⟨_, he, _⟩
        · obtain rfl := Node.declaration.inj (hb.symm.trans hb')
          rw [h.listed b d hlisted, e]
        · cases hb.symm.trans he
      · have hbelow : ∃ b, p.container = .declaration b ∧ Under P (.declaration d) b := by
          rcases hcontainer with ⟨b, hb, e⟩ | ⟨e, he, hcontainer⟩
          · exact ⟨b, e, .inside (hb ▸ hplaced)⟩
          · obtain ⟨b, hb, hu⟩ := h.under_of_placed hq e he
            exact ⟨b, hcontainer.trans hb, .through (he ▸ hplaced) hu⟩
        obtain ⟨b, hb, hu⟩ := hbelow
        obtain ⟨q, hdeclared, hlink⟩ := h.declared d hstores
        rw [hlink, hb, hunder d q b hdeclared hu]

end

end Recorded

end Forest

end LinkRepair
