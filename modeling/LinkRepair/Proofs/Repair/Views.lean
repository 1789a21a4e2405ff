import LinkRepair.Proofs.Forest.Branches
import LinkRepair.Proofs.Repair.Coverage
import LinkRepair.Proofs.Repair.Judgements
import LinkRepair.Unlinked

/-!
# What was there, as a forest under repair shows it

In the course of a repair a declaration gets new members and new bodies.  Its view leaves out all that
was not there at the start, so that stages of two repairs of one forest can be compared.

* `Forest.Entire`      every handle in the forest leads to something in the forest;
* `Plain.knows_types`  so do the classifiers in the types of a declaration, whatever became of them;
* `Content.within`, `Forest.view`   a declaration without what is not in the forest `F`;
* `mem_children_view`  a view has the nodes of `F` that are below the declaration;
* `Frames.view_eq`     a declaration out of scope has the same view before and after.
-/

namespace LinkRepair

/-! ## handles that lead somewhere -/

/-- the types that a declaration of this content is written with -/
def Content.types : Content → List TypeRef
  | .ofClass c => c.superTypes
  | .ofFunction f => [f.returnType]
  | .ofField f => [f.type]
  | .ofVariable v => [v.type]
  | .ofParameter p => p.types
  | .ofTypeParameter p => p.bounds
  | .ofProperty _ | .ofEnumEntry _ | .ofInitializer _ => []

namespace Forest

/-- **Every handle leads to something that is there**, a declaration owns its symbol, and a bound symbol
is that of its owner. -/
structure Entire (F : Forest) : Prop where
  parents : F.ParentsKnown
  children : F.ChildrenKnown
  owners : F.OwnersMatch
  owned : ∀ d x, F.declaration? d = some x → F.owner? x.symbol = some d
  typed : ∀ d x, F.declaration? d = some x → ∀ t ∈ x.content.types, ∀ s ∈ t.blamed, F.Knows s
  overridden : ∀ d x, F.declaration? d = some x → ∀ s ∈ x.overridden, F.Knows s
  spoken : ∀ e x, F.expression? e = some x → ∀ s ∈ x.mentioned, F.Knows s

theorem Entire.symbols {F : Forest} (h : F.Entire) (d : DeclarationId) (x : Declaration)
    (hx : F.declaration? d = some x) : F.Knows x.symbol := isSome_symbol?_of_owner? (h.owned d x hx)

theorem Entire.needsKnown {F : Forest} (h : F.Entire) : F.NeedsKnown := by
  intro s t ht
  cases hst : F.standing s with
  | broken => rw [hst] at ht; exact absurd ht List.not_mem_nil
  | rests needs isClass =>
    obtain ⟨d, x, _, hx, _, hof⟩ := exists_of_standing_rests hst
    have hmention : ∀ {types : List TypeRef}, types = x.content.types →
        t ∈ types.flatMap TypeRef.mentioned → F.Knows t := by
      rintro types rfl hmem
      obtain ⟨type, htype, htm⟩ := List.mem_flatMap.mp hmem
      exact h.typed d x hx type htype t (type.mentioned_subset_blamed htm)
    rw [hst] at ht
    replace ht : t ∈ needs := ht
    unfold standingOf at hof
    split at hof
    · cases hof
    · split at hof
      · rename_i info hinfo
        split at hof
        · cases hof
        · cases hof
          rcases List.mem_append.mp ht with ht | ht
          · exact hmention (by rw [hinfo]; rfl) ht
          · obtain ⟨y, hy, rfl⟩ := Option.map_eq_some_iff.mp (Option.mem_toList.mp ht)
            obtain ⟨b, _, hb⟩ := Option.bind_eq_some_iff.mp hy
            exact h.symbols b y hb
      · rename_i info hinfo
        cases hof
        exact hmention (by rw [hinfo]; rfl) ht
      · cases hof
        exact absurd ht List.not_mem_nil

end Forest

/-- the types of a declaration stay, or become markers of what is to blame for them -/
theorem Content.Becomes.mem_types {I : Intrinsics} {F : Forest} {m : Memo} {s : SymbolId}
    {c c' : Content} (h : c.Becomes I F m s c') {t : TypeRef} (ht : t ∈ c'.types) : t ∈ c.types
      ∨ ∃ k, t = I.markerType k.symbol
        ∧ (m.Blames (c.types.flatMap TypeRef.mentioned) k ∨ m.find? s = some (some k)) := by
  cases h with
  | ofClass hs => exact .inl (hs.subset ht)
  | @ofFunction f type _ _ htype =>
    rw [List.mem_singleton.mp ht]
    rcases htype with rfl | ⟨k, hk, rfl⟩
    · exact .inl (List.mem_singleton_self _)
    · exact .inr ⟨k, rfl, .inl (by simpa [Content.types] using hk)⟩
  | ofField hf =>
    rcases hf with rfl | ⟨k, hk, rfl⟩
    · exact .inl ht
    · exact .inr ⟨k, List.mem_singleton.mp ht, .inl (by simpa [Content.types] using hk)⟩
  | ofVariable hv =>
    rcases hv with rfl | ⟨k, hk, rfl⟩
    · exact .inl ht
    · exact .inr ⟨k, List.mem_singleton.mp ht, .inl (by simpa [Content.types] using hk)⟩
  | @ofParameter p p' hp =>
    rcases hp with rfl | ⟨k, hk, rfl⟩
    · exact .inl ht
    · refine .inr ⟨k, ?_, .inl hk⟩
      rcases List.mem_cons.mp ht with rfl | ht
      · rfl
      · obtain ⟨_, _, rfl⟩ := Option.map_eq_some_iff.mp (Option.mem_toList.mp ht)
        rfl
  | ofTypeParameter hp =>
    rcases hp with rfl | ⟨k, hk, rfl⟩
    · exact .inl ht
    · exact .inr ⟨k, List.mem_singleton.mp ht, .inr hk⟩
  | _ => exact .inl ht

/-- **The types of what was there speak of what was there**, whatever became of them. -/
theorem Pass.Plain.knows_types {I : Intrinsics} {F : Forest} {p : Pass} (h : p.Plain I F)
    (hE : F.Entire) {d : DeclarationId} {x y : Declaration} (hx : F.declaration? d = some x)
    (hy : p.forest.declaration? d = some y) : ∀ t ∈ y.content.types, ∀ s ∈ t.blamed, F.Knows s := by
  intro t ht s hs
  have hb := h.frames.becomes hx hy
  rcases hb.content.mem_types ht with ht | ⟨k, rfl, hk⟩
  · exact hE.typed d x hx t ht s hs
  · have hknown : ∃ u, F.Knows u ∧ p.memo.find? u = some (some k) := by
      rcases hk with ⟨u, hu, hk⟩ | hk
      · obtain ⟨t, ht, hu⟩ := List.mem_flatMap.mp hu
        exact ⟨u, hE.typed d x hx t ht u (t.mentioned_subset_blamed hu), hk⟩
      · exact ⟨_, hE.symbols d x hx, hk⟩
    obtain ⟨u, hu, hk⟩ := hknown
    obtain ⟨l, hl, hls⟩ := Forest.Cause.symbol_mem k
    rw [Intrinsics.markerType, TypeRef.blamed_marker, List.mem_singleton] at hs
    rw [hs, ← hls]
    exact Forest.knows_of_plainVerdict hE.needsKnown hu (h.memo u _ hu hk).symm l hl

/-! ## views -/

instance (F : Forest) : DecidablePred F.Stores
  | .declaration d => inferInstanceAs (Decidable (F.declaration? d).isSome)
  | .expression e => inferInstanceAs (Decidable (F.expression? e).isSome)

/-- the class without members that are not in the forest `F` -/
def ClassInfo.within (F : Forest) (c : ClassInfo) : ClassInfo :=
  { c with members := c.members.filter fun a => F.Stores (.declaration a) }

/-- the function without statements that are not in the forest `F` -/
def FunctionInfo.within (F : Forest) (f : FunctionInfo) : FunctionInfo :=
  { f with body := f.body.map (List.filter fun st => F.Stores st.node) }

def Content.within (F : Forest) : Content → Content
  | .ofClass c => .ofClass (c.within F)
  | .ofFunction f => .ofFunction (f.within F)
  | .ofInitializer body => .ofInitializer (body.filter fun st => F.Stores st.node)
  | content => content

def Declaration.within (F : Forest) (x : Declaration) : Declaration :=
  { x with content := x.content.within F }

/-- a declaration of `G`, as far as it was there in `F` -/
def Forest.view (F G : Forest) (d : DeclarationId) : Option Declaration :=
  (G.declaration? d).map (Declaration.within F)

namespace Declaration

section
variable (F : Forest) (x : Declaration)

theorem class?_within : (x.within F).class? = x.class?.map (ClassInfo.within F) := by
  obtain ⟨_, _, _, _, _, content⟩ := x
  cases content <;> rfl

theorem function?_within : (x.within F).function? = x.function?.map (FunctionInfo.within F) := by
  obtain ⟨_, _, _, _, _, content⟩ := x
  cases content <;> rfl

theorem parameter?_within : (x.within F).parameter? = x.parameter? := by
  obtain ⟨_, _, _, _, _, content⟩ := x
  cases content <;> rfl

theorem typeParameter?_within : (x.within F).typeParameter? = x.typeParameter? := by
  obtain ⟨_, _, _, _, _, content⟩ := x
  cases content <;> rfl

theorem valueType?_within : (x.within F).valueType? = x.valueType? := by
  obtain ⟨_, _, _, _, _, content⟩ := x
  cases content <;> rfl

theorem overridden_within : (x.within F).overridden = x.overridden := by
  obtain ⟨_, _, _, _, _, content⟩ := x
  cases content <;> rfl

/-! ## edits and views -/

theorem within_mapParameter (g : ParameterInfo → ParameterInfo) :
    (x.mapParameter g).within F = (x.within F).mapParameter g := by
  obtain ⟨_, _, _, _, _, content⟩ := x
  cases content <;> rfl

theorem within_mapTypeParameter (g : TypeParameterInfo → TypeParameterInfo) :
    (x.mapTypeParameter g).within F = (x.within F).mapTypeParameter g := by
  obtain ⟨_, _, _, _, _, content⟩ := x
  cases content <;> rfl

theorem within_returnType (t : TypeRef) :
    (x.mapFunction fun f => { f with returnType := t }).within F
      = (x.within F).mapFunction fun f => { f with returnType := t } := by
  obtain ⟨_, _, _, _, _, content⟩ := x
  cases content <;> rfl

theorem within_superTypes (l : List TypeRef) :
    (x.mapClass fun c => { c with superTypes := l }).within F
      = (x.within F).mapClass fun c => { c with superTypes := l } := by
  obtain ⟨_, _, _, _, _, content⟩ := x
  cases content <;> rfl

theorem within_breakValue (t : TypeRef) :
    (x.breakValue t).within F = (x.within F).breakValue t := by
  obtain ⟨_, _, _, _, _, content⟩ := x
  cases content <;> rfl

theorem within_withOverridden (l : List SymbolId) :
    (x.withOverridden l).within F = (x.within F).withOverridden l := by
  obtain ⟨_, _, _, _, _, content⟩ := x
  cases content <;> rfl

variable {F x}

/-- a new body is not seen -/
theorem within_withBody {e : ExpressionId} (he : F.expression? e = none) :
    (x.withBody [.expression e]).within F = (x.within F).withBody [] := by
  obtain ⟨_, _, _, _, _, content⟩ := x
  cases content <;>
    simp [withBody, within, Content.within, FunctionInfo.within, Statement.node, Forest.Stores, he]

/-- nor are new members -/
theorem within_enlist {added : List DeclarationId} (h : ∀ a ∈ added, F.declaration? a = none) :
    (x.enlist added).within F = x.within F := by
  have hnone : added.filter (fun a => F.Stores (.declaration a)) = [] :=
    List.filter_eq_nil_iff.mpr fun a ha => by simp [Forest.Stores, h a ha]
  obtain ⟨_, _, _, _, _, content⟩ := x
  cases content <;> simp [enlist, mapClass, within, Content.within, ClassInfo.within, hnone]

end

end Declaration

/-- a view has those children that are in `F` -/
theorem Content.filter_children_within (F : Forest) (c : Content) :
    (c.within F).children.filter (fun n => F.Stores n) = c.children.filter fun n => F.Stores n := by
  have hmap : ∀ (l : List Statement), ((l.filter fun st => F.Stores st.node).map
      Statement.node).filter (fun n => F.Stores n) = (l.map Statement.node).filter fun n => F.Stores n := by
    intro l
    rw [List.filter_map, List.filter_map, List.filter_filter]
    simp [Function.comp_def]
  cases c with
  | ofClass c =>
    simp [within, ClassInfo.within, children, List.filter_map, Function.comp_def]
  | ofFunction f =>
    cases hf : f.body <;>
      simp [within, FunctionInfo.within, children, hf, hmap]
  | ofInitializer body => exact hmap body
  | _ => rfl

namespace Forest

section
variable {F G H : Forest} {d a : DeclarationId} {x y : Declaration}

theorem view_eq_some (hx : G.declaration? d = some x) : F.view G d = some (x.within F) := by
  rw [view, hx, Option.map_some]

/-- two declarations with one view are there together -/
theorem exists_of_view (h : F.view G d = F.view H d) (hx : G.declaration? d = some x) :
    ∃ y, H.declaration? d = some y ∧ x.within F = y.within F := by
  rw [view_eq_some hx] at h
  obtain ⟨y, hy, hxy⟩ := Option.map_eq_some_iff.mp h.symm
  exact ⟨y, hy, hxy.symm⟩

/-- the same edit, as far as views show it -/
theorem view_update (h : F.view G a = F.view H a) {g g' : Declaration → Declaration}
    (hg : ∀ x y, G.declaration? a = some x → H.declaration? a = some y →
      x.within F = y.within F → (g x).within F = (g' y).within F) :
    F.view (G.updateDeclaration d g) a = F.view (H.updateDeclaration d g') a := by
  unfold view at h ⊢
  rw [declaration?_updateDeclaration, declaration?_updateDeclaration]
  split
  · cases hG : G.declaration? a with
    | none =>
      rw [hG] at h
      rw [Option.map_eq_none_iff.mp h.symm]
      rfl
    | some x =>
      obtain ⟨y, hy, hxy⟩ := exists_of_view h hG
      rw [hy]
      exact congrArg some (hg x y hG hy hxy)
  · exact h

/-- nodes of `F` are below a declaration just if they are below one with the same view -/
theorem mem_children_view (h : F.view G d = F.view H d) {n : Node} (hn : F.Stores n) :
    n ∈ G.children (.declaration d) ↔ n ∈ H.children (.declaration d) := by
  have hcontent : ∀ {G : Forest}, n ∈ G.children (.declaration d)
      ↔ ∃ x, F.view G d = some x ∧ n ∈ x.content.children := by
    intro G
    cases hx : G.declaration? d with
    | none => simp [children, view, hx]
    | some x =>
      have hmem : n ∈ (x.within F).content.children ↔ n ∈ x.content.children := by
        have := congrArg (n ∈ ·) (Content.filter_children_within F x.content)
        simpa [hn, Declaration.within] using this
      rw [children_declaration hx, view_eq_some hx, ← hmem]
      simp
  rw [hcontent, hcontent, h]

end

end Forest

/-- **What is out of scope shows the same view.** -/
theorem Pass.Frames.view_eq {I : Intrinsics} {F : Forest} {T K : DeclarationId → Prop} {p q : Pass}
    (h : Pass.Frames I T K p q) (hp : ∀ d, p.forest.declaration? d = none → F.declaration? d = none)
    {a : DeclarationId} (ha : (F.declaration? a).isSome) (hT : ¬ T a) :
    F.view q.forest a = F.view p.forest a := by
  cases hx : p.forest.declaration? a with
  | none =>
    rw [hp a hx] at ha
    cases ha
  | some x =>
    obtain ⟨y, hy, hb, hout⟩ := h.declaration? a x hx
    obtain ⟨added, rfl, _⟩ := hout hT
    rw [Forest.view_eq_some hx, Forest.view_eq_some hy]
    obtain ⟨symbol, name, origin, parent, span, content⟩ := x
    cases content with
    | ofClass c =>
      -- what a class lists in addition was not there before
      have hcontent := hb.content
      generalize hy' : (Declaration.enlist added _).content = content at hcontent
      cases hcontent with
      | ofClass _ _ hnew =>
        have hmembers := congrArg ClassInfo.members (Content.ofClass.inj hy')
        rw [List.append_cancel_left hmembers] at hy ⊢
        exact congrArg some (Declaration.within_enlist fun d hd => hp d (hnew d hd))
    | _ => rw [Declaration.enlist_of_not_isClass rfl]

end LinkRepair
