import Mathlib.Data.List.Nodup
import LinkRepair.Forest.Navigation
import LinkRepair.Proofs.Walk.Paths

/-!
# What is reached from the roots

* `Forest.Child`            directly below, as a relation;
* `Forest.Reaches`          below one of the roots, on any number of levels;
* `Forest.stored`           the nodes of the two stores;
* `Forest.mem_nodesUnder`   the bound of `Forest.nodesUnder` loses nothing that is stored.
-/

namespace LinkRepair

namespace Forest

def Child (F : Forest) (a n : Node) : Prop := n ∈ F.children a

/-- the declarations that a list of roots stands for -/
def tops (F : Forest) (roots : List Root) : List DeclarationId := roots.flatMap F.rootDeclarations

def Reaches (F : Forest) (roots : List Root) (n : Node) : Prop :=
  ∃ d ∈ F.tops roots, Relation.ReflTransGen F.Child (.declaration d) n

theorem tops_subset {F : Forest} {roots roots' : List Root} (h : roots ⊆ roots') :
    F.tops roots ⊆ F.tops roots' := fun _ hd => by
  obtain ⟨r, hr, hdr⟩ := List.mem_flatMap.mp hd
  exact List.mem_flatMap.mpr ⟨r, h hr, hdr⟩

/-- the node is there -/
def Stores (F : Forest) : Node → Prop
  | .declaration d => (F.declaration? d).isSome
  | .expression e => (F.expression? e).isSome

def stored (F : Forest) : List Node :=
  (List.range F.declarations.size).map (fun i => .declaration ⟨i⟩)
    ++ (List.range F.expressions.size).map fun i => .expression ⟨i⟩

section
variable {F : Forest} {roots : List Root} {a n : Node}

theorem length_stored : F.stored.length = F.nodeCount := by
  simp [stored, nodeCount]

theorem declaration?_isSome {d : DeclarationId} :
    (F.declaration? d).isSome ↔ d.index < F.declarations.size := by
  simp [declaration?]

theorem expression?_isSome {e : ExpressionId} :
    (F.expression? e).isSome ↔ e.index < F.expressions.size := by
  simp [expression?]

/-- the declarations of the store -/
def declarationIds (F : Forest) : List DeclarationId :=
  (List.range F.declarations.size).map DeclarationId.mk

theorem mem_declarationIds {d : DeclarationId} :
    d ∈ F.declarationIds ↔ (F.declaration? d).isSome := by
  obtain ⟨i⟩ := d
  simp [declarationIds, declaration?_isSome]

/-- different declarations are not more than the store has -/
theorem length_le_of_declared {l : List DeclarationId} (h : l.Nodup)
    (hl : ∀ d ∈ l, (F.declaration? d).isSome) : l.length ≤ F.declarations.size := by
  have hle := length_le_of_nodup h fun d hd => mem_declarationIds.mpr (hl d hd)
  rwa [declarationIds, List.length_map, List.length_range] at hle

/-- the symbols of the store -/
def symbolIds (F : Forest) : List SymbolId := (List.range F.symbols.size).map SymbolId.mk

theorem mem_symbolIds {s : SymbolId} : s ∈ F.symbolIds ↔ (F.symbol? s).isSome := by
  obtain ⟨i⟩ := s
  simp [symbolIds, symbol?]

/-- the files of the store -/
theorem mem_fileIds {f : FileId} : f ∈ F.fileIds ↔ (F.file? f).isSome := by
  obtain ⟨i⟩ := f
  simp [fileIds, file?]

theorem nodup_fileIds : F.fileIds.Nodup :=
  List.nodup_range.map fun _ _ => FileId.mk.inj

/-- what lists a declaration is a file of the forest -/
theorem mem_fileIds_of_rootDeclarations {f : FileId} {d : DeclarationId}
    (h : d ∈ F.rootDeclarations (.file f)) : f ∈ F.fileIds := by
  rw [rootDeclarations] at h
  cases hf : F.file? f with
  | none => simp [hf] at h
  | some x => exact mem_fileIds.mpr (Option.isSome_iff_exists.mpr ⟨x, hf⟩)

/-- only symbols of the store are bound -/
theorem isSome_symbol?_of_owner? {s : SymbolId} {d : DeclarationId} (h : F.owner? s = some d) :
    (F.symbol? s).isSome := by
  obtain ⟨x, hx, _⟩ := Option.bind_eq_some_iff.mp h
  exact Option.isSome_iff_exists.mpr ⟨x, hx⟩

theorem mem_stored : n ∈ F.stored ↔ F.Stores n := by
  cases n with
  | declaration d =>
    obtain ⟨i⟩ := d
    simp [stored, Stores, declaration?_isSome]
  | expression e =>
    obtain ⟨i⟩ := e
    simp [stored, Stores, expression?_isSome]

theorem children_declaration {d : DeclarationId} {x : Declaration}
    (h : F.declaration? d = some x) : F.children (.declaration d) = x.content.children := by
  simp [children, h]

/-- what a declaration lists is below it -/
theorem child_of_content {d : DeclarationId} {x : Declaration} {c : Content}
    (h : F.declaration? d = some x) (hc : x.content = c) (hn : n ∈ c.children) :
    F.Child (.declaration d) n := by
  unfold Child
  rwa [children_declaration h, hc]

theorem children_expression {e : ExpressionId} {x : Expression}
    (h : F.expression? e = some x) : F.children (.expression e) = x.operation.children := by
  simp [children, h]

theorem Child.stores (h : F.Child a n) : F.Stores a := by
  unfold Child children at h
  unfold Stores
  cases a with
  | declaration d =>
    cases hd : F.declaration? d with
    | none => simp [hd] at h
    | some x => simp [hd]
  | expression e =>
    cases he : F.expression? e with
    | none => simp [he] at h
    | some x => simp [he]

theorem mem_preorder {depth : Nat} :
    ∀ {a : Node}, n ∈ F.preorder depth a ↔ ∃ k, k < depth ∧ Below F.Child k a n := by
  induction depth with
  | zero => simp [preorder]
  | succ depth ih =>
    intro a
    rw [preorder_succ, List.mem_cons, List.mem_flatMap]
    constructor
    · rintro (h | ⟨b, hb, h⟩)
      · exact ⟨0, Nat.succ_pos _, h⟩
      · obtain ⟨k, hk, h⟩ := ih.mp h
        exact ⟨k + 1, Nat.succ_lt_succ hk, b, hb, h⟩
    · rintro ⟨k, hk, h⟩
      cases k with
      | zero => exact .inl h
      | succ k =>
        obtain ⟨b, hb, h⟩ := h
        exact .inr ⟨b, hb, ih.mpr ⟨k, Nat.lt_of_succ_lt_succ hk, h⟩⟩

/-- what is reached is reached within the bound, and below it when it is stored -/
theorem exists_below_nodeCount (h : Relation.ReflTransGen F.Child a n) :
    ∃ k, k ≤ F.nodeCount ∧ (F.Stores n → k < F.nodeCount) ∧ Below F.Child k a n := by
  obtain ⟨k, hk, hlt, hb⟩ := exists_below_length F.stored
    (fun b c hbc => mem_stored.mpr (Child.stores hbc)) h
  rw [length_stored] at hk hlt
  exact ⟨k, hk, fun hs => hlt (mem_stored.mpr hs), hb⟩

theorem reaches_of_mem_nodesUnder (h : n ∈ F.nodesUnder roots) : F.Reaches roots n := by
  obtain ⟨d, hd, hn⟩ := List.mem_flatMap.mp h
  obtain ⟨k, _, hb⟩ := mem_preorder.mp hn
  exact ⟨d, hd, hb.reflTransGen⟩

/-- **The nodes under some roots are the stored ones that are reached from there.** -/
theorem mem_nodesUnder (hs : F.Stores n) : n ∈ F.nodesUnder roots ↔ F.Reaches roots n := by
  refine ⟨reaches_of_mem_nodesUnder, ?_⟩
  rintro ⟨d, hd, h⟩
  obtain ⟨k, _, hlt, hb⟩ := exists_below_nodeCount h
  exact List.mem_flatMap.mpr ⟨d, hd, mem_preorder.mpr ⟨k, hlt hs, hb⟩⟩

end

end Forest

end LinkRepair
