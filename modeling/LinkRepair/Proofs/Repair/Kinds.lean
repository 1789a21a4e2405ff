import LinkRepair.Proofs.Forest.Reach
import LinkRepair.Proofs.Repair.Inheritance

/-!
# Slots and the kinds of what they hold

The parameters and type parameters of classes and functions are listed by handle, and nothing in a
forest says that what is listed is a parameter.  A forest is kind-correct when it is so wherever a
repair looks.

* `FunctionInfo.parameters`   receivers and value parameters, which are parts of the signature;
* `Content.slots`             what a class or a function lists as parameters and type parameters;
* `Forest.Fits`               the slots hold declarations of the kind that they are for;
* `Forest.KindCorrect`        so it is below the roots, and in the functions that are inherited there;
* `Forest.Keeps F G`          parameters stay parameters, and type parameters type parameters.
-/

namespace LinkRepair

namespace FunctionInfo

/-- receivers and value parameters -/
def parameters (f : FunctionInfo) : List DeclarationId :=
  f.dispatchReceiver.toList ++ f.extensionReceiver.toList ++ f.valueParameters

section
variable {f : FunctionInfo} {a : DeclarationId}

theorem parameter_mem_signature : .parameter a ∈ f.signature ↔ a ∈ f.parameters := by
  simp only [signature, parameters, List.mem_append, List.mem_map, List.mem_singleton, reduceCtorEq,
    SignaturePart.parameter.injEq, exists_eq_right, and_false, exists_false, or_false]
  tauto

theorem typeParameter_mem_signature : .typeParameter a ∈ f.signature ↔ a ∈ f.typeParameters := by
  simp [signature]

end

end FunctionInfo

def Content.slots : Content → List DeclarationId
  | .ofClass c => c.typeParameters
  | .ofFunction f => f.typeParameters ++ f.parameters
  | _ => []

theorem Content.mem_children_of_mem_slots {c : Content} {a : DeclarationId} (h : a ∈ c.slots) :
    .declaration a ∈ c.children := by
  cases c with
  | ofClass c => exact List.mem_map_of_mem (List.mem_append_left _ h)
  | ofFunction f =>
    refine List.mem_append_left _ (List.mem_map_of_mem ?_)
    simpa [slots, FunctionInfo.parameters] using h
  | _ => exact absurd h List.not_mem_nil

/-- a parameter of a function is below it -/
theorem FunctionInfo.mem_children_of_mem_signature {f : FunctionInfo} {a : DeclarationId}
    (h : .parameter a ∈ f.signature ∨ .typeParameter a ∈ f.signature) :
    .declaration a ∈ (Content.ofFunction f).children := by
  rw [FunctionInfo.parameter_mem_signature, FunctionInfo.typeParameter_mem_signature] at h
  exact Content.mem_children_of_mem_slots (List.mem_append.mpr h.symm)

/-- what is in a slot of a declaration is below it -/
theorem Forest.child_of_slot {F : Forest} {d a : DeclarationId} {x : Declaration} {c : Content}
    (hx : F.declaration? d = some x) (hc : x.content = c) (ha : a ∈ c.slots) :
    F.Child (.declaration d) (.declaration a) :=
  child_of_content hx hc (Content.mem_children_of_mem_slots ha)

namespace Forest

def HasParameter (F : Forest) (d : DeclarationId) : Prop :=
  ∃ x p, F.declaration? d = some x ∧ x.content = .ofParameter p

def HasTypeParameter (F : Forest) (d : DeclarationId) : Prop :=
  ∃ x p, F.declaration? d = some x ∧ x.content = .ofTypeParameter p

def Fits (F : Forest) : Content → Prop
  | .ofClass c => ∀ t ∈ c.typeParameters, F.HasTypeParameter t
  | .ofFunction f => (∀ t ∈ f.typeParameters, F.HasTypeParameter t)
      ∧ ∀ q ∈ f.parameters, F.HasParameter q
  | _ => True

theorem Fits.of_mem_slots {F : Forest} {c : Content} {a : DeclarationId} (h : F.Fits c)
    (ha : a ∈ c.slots) : F.HasParameter a ∨ F.HasTypeParameter a := by
  cases c with
  | ofClass c => exact .inr (h a ha)
  | ofFunction f => exact (List.mem_append.mp ha).elim (fun ha => .inr (h.1 a ha)) fun ha => .inl (h.2 a ha)
  | _ => exact absurd ha List.not_mem_nil

/-- `m` is a function among the members of a class that a class below the roots inherits from -/
def Bequeaths (F : Forest) (roots : List Root) (m : DeclarationId) (x : Declaration)
    (f : FunctionInfo) : Prop :=
  ∃ r b c, F.Reaches roots (.declaration r) ∧ F.Inherits r b ∧ F.class? b = some c
    ∧ m ∈ c.members ∧ F.declaration? m = some x ∧ x.content = .ofFunction f

structure KindCorrect (F : Forest) (roots : List Root) : Prop where
  slots : ∀ d x, F.Reaches roots (.declaration d) → F.declaration? d = some x → F.Fits x.content
  inherited : ∀ m x f, F.Bequeaths roots m x f → F.Fits x.content
  /-- parameters and type parameters occur only in slots -/
  places : ∀ d, F.Reaches roots (.declaration d) → F.HasParameter d ∨ F.HasTypeParameter d →
    ∃ a x, F.Reaches roots (.declaration a) ∧ F.declaration? a = some x ∧ d ∈ x.content.slots

structure Keeps (F G : Forest) : Prop where
  parameter : ∀ d, F.HasParameter d → G.HasParameter d
  typeParameter : ∀ d, F.HasTypeParameter d → G.HasTypeParameter d

/-! ## a check of the kinds -/

def holdsParameter (F : Forest) (d : DeclarationId) : Bool :=
  (F.declaration? d).any fun x => x.parameter?.isSome

def holdsTypeParameter (F : Forest) (d : DeclarationId) : Bool :=
  (F.declaration? d).any fun x => x.typeParameter?.isSome

def slotsFit (F : Forest) : Content → Bool
  | .ofClass c => c.typeParameters.all F.holdsTypeParameter
  | .ofFunction f => f.typeParameters.all F.holdsTypeParameter && f.parameters.all F.holdsParameter
  | _ => true

/-- whether the node lists `d` in a slot -/
def listsInSlot (F : Forest) (d : DeclarationId) : Node → Bool
  | .declaration a => (F.declaration? a).any fun x => d ∈ x.content.slots
  | .expression _ => false

/-- whether the node is no parameter, or is in a slot of one of `nodes` -/
def isPlaced (F : Forest) (nodes : List Node) : Node → Bool
  | .declaration d => !(F.holdsParameter d || F.holdsTypeParameter d) || nodes.any (F.listsInSlot d)
  | .expression _ => true

/-- all slots fit, and below the roots every parameter is in one -/
def kindsFit (F : Forest) (roots : List Root) : Bool :=
  F.declarations.toList.all (fun x => F.slotsFit x.content)
    && (F.nodesUnder roots).all (F.isPlaced (F.nodesUnder roots))

theorem holdsParameter_iff {F : Forest} {d : DeclarationId} :
    F.holdsParameter d = true ↔ F.HasParameter d := by
  unfold holdsParameter HasParameter Declaration.parameter?
  cases F.declaration? d with
  | none => simp
  | some x => cases hx : x.content <;> simp [hx]

theorem holdsTypeParameter_iff {F : Forest} {d : DeclarationId} :
    F.holdsTypeParameter d = true ↔ F.HasTypeParameter d := by
  unfold holdsTypeParameter HasTypeParameter Declaration.typeParameter?
  cases F.declaration? d with
  | none => simp
  | some x => cases hx : x.content <;> simp [hx]

theorem slotsFit_iff {F : Forest} {c : Content} : F.slotsFit c = true ↔ F.Fits c := by
  cases c <;> simp [slotsFit, Fits, holdsParameter_iff, holdsTypeParameter_iff]

/-- **A forest that passes the check is kind-correct.** -/
theorem kindCorrect_of_kindsFit {F : Forest} {roots : List Root} (h : F.kindsFit roots = true) :
    F.KindCorrect roots := by
  obtain ⟨hfits, hplaced⟩ := Bool.and_eq_true_iff.mp h
  have hall : ∀ d x, F.declaration? d = some x → F.Fits x.content := fun d x hx =>
    slotsFit_iff.mp (List.all_eq_true.mp hfits x
      (Array.mem_toList_iff.mpr (Array.mem_of_getElem? hx)))
  refine ⟨fun d x _ hx => hall d x hx, ?_, fun d hd hp => ?_⟩
  · rintro m x f ⟨_, _, _, _, _, _, _, hx, _⟩
    exact hall m x hx
  · have hstored : F.Stores (.declaration d) := by
      rcases hp with ⟨x, _, hx, _⟩ | ⟨x, _, hx, _⟩ <;> exact Option.isSome_iff_exists.mpr ⟨x, hx⟩
    have hholds : (F.holdsParameter d || F.holdsTypeParameter d) = true := by
      rw [Bool.or_eq_true, holdsParameter_iff, holdsTypeParameter_iff]
      exact hp
    have hmem := List.all_eq_true.mp hplaced _ ((mem_nodesUnder hstored).mpr hd)
    rw [isPlaced, hholds, Bool.not_true, Bool.false_or] at hmem
    obtain ⟨n, hn, hslot⟩ := List.any_eq_true.mp hmem
    cases n with
    | expression e => cases hslot
    | declaration a =>
      obtain ⟨x, hx, hdx⟩ := (Option.any_eq_true _ _).mp hslot
      exact ⟨a, x, reaches_of_mem_nodesUnder hn, hx, of_decide_eq_true hdx⟩

section
variable {F G H : Forest}

theorem Keeps.refl (F : Forest) : F.Keeps F := ⟨fun _ h => h, fun _ h => h⟩

theorem Keeps.trans (h : F.Keeps G) (h' : G.Keeps H) : F.Keeps H :=
  ⟨fun d hd => h'.parameter d (h.parameter d hd),
    fun d hd => h'.typeParameter d (h.typeParameter d hd)⟩

/-- whatever keeps the declarations that are there -/
theorem keeps_of_declaration? (h : ∀ d x, F.declaration? d = some x → G.declaration? d = some x) :
    F.Keeps G where
  parameter := fun d ⟨x, p, hx, hp⟩ => ⟨x, p, h d x hx, hp⟩
  typeParameter := fun d ⟨x, p, hx, hp⟩ => ⟨x, p, h d x hx, hp⟩

theorem Fits.keeps {c : Content} (hc : F.Fits c) (h : F.Keeps G) : G.Fits c := by
  cases c with
  | ofClass c => exact fun t ht => h.typeParameter t (hc t ht)
  | ofFunction f =>
    exact ⟨fun t ht => h.typeParameter t (hc.1 t ht), fun q hq => h.parameter q (hc.2 q hq)⟩
  | _ => trivial

/-- an edit that leaves the kinds of declarations as they are -/
theorem keeps_updateDeclaration {d : DeclarationId} {g : Declaration → Declaration}
    (hp : ∀ x p, x.content = .ofParameter p → ∃ p', (g x).content = .ofParameter p')
    (ht : ∀ x p, x.content = .ofTypeParameter p → ∃ p', (g x).content = .ofTypeParameter p') :
    F.Keeps (F.updateDeclaration d g) := by
  have hlook : ∀ a x, F.declaration? a = some x → ∃ y,
      (F.updateDeclaration d g).declaration? a = some y ∧ (y = x ∨ y = g x) := by
    intro a x hx
    rw [declaration?_updateDeclaration, hx]
    split
    · exact ⟨_, rfl, .inr rfl⟩
    · exact ⟨_, rfl, .inl rfl⟩
  constructor
  · rintro a ⟨x, p, hx, hxp⟩
    obtain ⟨y, hy, rfl | rfl⟩ := hlook a x hx
    · exact ⟨y, p, hy, hxp⟩
    · obtain ⟨p', hp'⟩ := hp x p hxp
      exact ⟨_, p', hy, hp'⟩
  · rintro a ⟨x, p, hx, hxp⟩
    obtain ⟨y, hy, rfl | rfl⟩ := hlook a x hx
    · exact ⟨y, p, hy, hxp⟩
    · obtain ⟨p', hp'⟩ := ht x p hxp
      exact ⟨_, p', hy, hp'⟩

end

end Forest

section
variable {I : Intrinsics} {T K : DeclarationId → Prop} {p q : Pass}

/-- a run of repairs keeps the kinds of what was there -/
theorem Pass.Frames.keeps (h : Pass.Frames I T K p q) : p.forest.Keeps q.forest where
  parameter := by
    rintro d ⟨x, info, hx, hinfo⟩
    obtain ⟨y, hy, hb, _⟩ := h.declaration? d x hx
    have hc := hb.content
    rw [hinfo] at hc
    generalize hyc : y.content = c at hc
    cases hc
    exact ⟨y, _, hy, hyc⟩
  typeParameter := by
    rintro d ⟨x, info, hx, hinfo⟩
    obtain ⟨y, hy, hb, _⟩ := h.declaration? d x hx
    have hc := hb.content
    rw [hinfo] at hc
    generalize hyc : y.content = c at hc
    cases hc
    exact ⟨y, _, hy, hyc⟩

/-- slots do not change -/
theorem Content.Becomes.slots {F : Forest} {m : Memo} {s : SymbolId} {c c' : Content}
    (h : c.Becomes I F m s c') : c'.slots = c.slots := by
  cases h <;> rfl

theorem Content.Becomes.fits {F G : Forest} {m : Memo} {s : SymbolId} {c c' : Content}
    (h : c.Becomes I F m s c') (hc : G.Fits c) : G.Fits c' := by
  cases h with
  | ofClass => exact hc
  | ofFunction => exact hc
  | _ => trivial

end

end LinkRepair
