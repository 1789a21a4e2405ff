import LinkRepair.Proofs.Exploration.Soundness
import LinkRepair.Repair.Signature

/-!
# What a run of repairs leaves as it is

The sweep over declarations edits a forest in few ways, and each edit of a type has its reason in the
memo.  `Pass.Frames` says all that any number of such edits can do to the declarations that were
there before:

* `Memo.Blames m l c`      `c` is the cause that is kept for one of the classifiers `l`;
* `Declaration.Becomes`    what may become of one declaration;
* `Pass.Frames T K p q`    from `p` to `q` only declarations of `T` were edited, but for the members
                           that classes of `K` were given; what is new has its place;
* `Pass.Frames.becomes`    what was there is there again, and is what may have become of it;
* `Pass.Frames.eases`      nothing that was sound as long as others are rests on anything new.
-/

namespace LinkRepair

/-! ## one declaration -/

def Memo.Blames (m : Memo) (l : List SymbolId) (c : Cause) : Prop :=
  ∃ s ∈ l, m.find? s = some (some c)

theorem Memo.Blames.mono {m m' : Memo} {l : List SymbolId} {c : Cause} (h : m.Blames l c)
    (hk : m.KeptIn m') : m'.Blames l c := by
  obtain ⟨s, hs, h⟩ := h
  exact ⟨s, hs, hk s _ h⟩

/-- the reason for which a super type is dropped: the class was asked about, and a classifier that
the type mentions is broken -/
def Memo.Drops (m : Memo) (s : SymbolId) (t : TypeRef) : Prop :=
  (m.find? s).isSome ∧ ∃ c, m.Blames t.mentioned c

theorem Memo.Drops.mono {m m' : Memo} {s : SymbolId} {t : TypeRef} (h : m.Drops s t)
    (hk : m.KeptIn m') : m'.Drops s t := by
  obtain ⟨v, hv⟩ := Option.isSome_iff_exists.mp h.1
  exact ⟨Option.isSome_iff_exists.mpr ⟨v, hk s v hv⟩, h.2.imp fun _ hb => hb.mono hk⟩

theorem Memo.not_blames_nil {m : Memo} {c : Cause} : ¬ m.Blames [] c := by
  rintro ⟨s, hs, _⟩
  exact absurd hs List.not_mem_nil

/-- what may become of a body: it stays, or a new call takes its place -/
def Replaces (F : Forest) (body body' : List Statement) : Prop :=
  body' = body ∨ ∃ e, F.expression? e = none ∧ body' = [.expression e]

/-- what may become of the content of a declaration of the symbol `s` -/
inductive Content.Becomes (I : Intrinsics) (F : Forest) (m : Memo) (s : SymbolId) :
    Content → Content → Prop
  | ofClass {c : ClassInfo} {superTypes : List TypeRef} {added : List DeclarationId}
      (ht : superTypes.Sublist c.superTypes)
      (hd : ∀ t ∈ c.superTypes, t ∈ superTypes ∨ m.Drops s t)
      (ha : ∀ d ∈ added, F.declaration? d = none) :
      Becomes I F m s (.ofClass c)
        (.ofClass { c with superTypes := superTypes, members := c.members ++ added })
  | ofFunction {f : FunctionInfo} {type : TypeRef} {overridden : List SymbolId}
      {body : Option (List Statement)}
      (ht : type = f.returnType
        ∨ ∃ c, m.Blames f.returnType.mentioned c ∧ type = I.markerType c.symbol)
      (ho : overridden.Sublist f.overridden)
      (hb : body = f.body ∨ ∃ e, F.expression? e = none ∧ body = some [.expression e]) :
      Becomes I F m s (.ofFunction f)
        (.ofFunction { f with returnType := type, overridden := overridden, body := body })
  | ofProperty {p : PropertyInfo} {overridden : List SymbolId}
      (ho : overridden.Sublist p.overridden) :
      Becomes I F m s (.ofProperty p) (.ofProperty { p with overridden := overridden })
  | ofField {f f' : FieldInfo}
      (h : f' = f ∨ ∃ c, m.Blames f.type.mentioned c
        ∧ f' = { f with type := I.markerType c.symbol, initializer := none }) :
      Becomes I F m s (.ofField f) (.ofField f')
  | ofVariable {v v' : VariableInfo}
      (h : v' = v ∨ ∃ c, m.Blames v.type.mentioned c
        ∧ v' = { v with type := I.markerType c.symbol, initializer := none }) :
      Becomes I F m s (.ofVariable v) (.ofVariable v')
  | ofParameter {p p' : ParameterInfo}
      (h : p' = p ∨ ∃ c, m.Blames (p.types.flatMap TypeRef.mentioned) c
        ∧ p' = p.broken (I.markerType c.symbol)) :
      Becomes I F m s (.ofParameter p) (.ofParameter p')
  | ofTypeParameter {p p' : TypeParameterInfo}
      (h : p' = p ∨ ∃ c, m.find? s = some (some c) ∧ p' = ⟨[I.markerType c.symbol]⟩) :
      Becomes I F m s (.ofTypeParameter p) (.ofTypeParameter p')
  | ofEnumEntry {e : EnumEntryInfo} : Becomes I F m s (.ofEnumEntry e) (.ofEnumEntry e)
  | ofInitializer {body body' : List Statement} (h : Replaces F body body') :
      Becomes I F m s (.ofInitializer body) (.ofInitializer body')

structure Declaration.Becomes (I : Intrinsics) (F : Forest) (m : Memo) (x y : Declaration) :
    Prop where
  symbol : y.symbol = x.symbol
  name : y.name = x.name
  origin : y.origin = x.origin
  parent : y.parent = x.parent
  span : y.span = x.span
  content : x.content.Becomes I F m x.symbol y.content

theorem ParameterInfo.mentioned_broken (p : ParameterInfo) (I : Intrinsics) (s : SymbolId) :
    (p.broken (I.markerType s)).types.flatMap TypeRef.mentioned = [] := by
  obtain ⟨type, element, default⟩ := p
  cases element <;>
    simp [broken, types, Intrinsics.markerType, TypeRef.mentioned_marker]

section
variable {I : Intrinsics} {F G : Forest} {m m' : Memo} {s : SymbolId}

theorem Content.Becomes.refl (c : Content) : c.Becomes I F m s c := by
  cases c with
  | ofClass c =>
    have h : Becomes I F m s (.ofClass c) (.ofClass { c with members := c.members ++ [] }) :=
      .ofClass (List.Sublist.refl c.superTypes) (fun _ ht => .inl ht)
        fun d hd => absurd hd List.not_mem_nil
    rwa [List.append_nil] at h
  | ofFunction f => exact .ofFunction (f := f) (.inl rfl) (List.Sublist.refl _) (.inl rfl)
  | ofProperty p => exact .ofProperty (p := p) (List.Sublist.refl _)
  | ofField f => exact .ofField (.inl rfl)
  | ofVariable v => exact .ofVariable (.inl rfl)
  | ofParameter p => exact .ofParameter (.inl rfl)
  | ofTypeParameter p => exact .ofTypeParameter (.inl rfl)
  | ofEnumEntry e => exact .ofEnumEntry
  | ofInitializer body => exact .ofInitializer (.inl rfl)

/-- what was broken for a reason mentions nothing any more, so it is not broken again -/
theorem broken_trans {α : Type} (mentioned : α → List SymbolId) (broken : α → Cause → α)
    (hbroken : ∀ x c, mentioned (broken x c) = []) {x y z : α}
    (h : y = x ∨ ∃ c, m.Blames (mentioned x) c ∧ y = broken x c)
    (h' : z = y ∨ ∃ c, m'.Blames (mentioned y) c ∧ z = broken y c) (hk : m.KeptIn m') :
    z = x ∨ ∃ c, m'.Blames (mentioned x) c ∧ z = broken x c := by
  rcases h' with rfl | ⟨c', hc', rfl⟩
  · exact h.imp_right fun ⟨c, hc, e⟩ => ⟨c, hc.mono hk, e⟩
  · rcases h with rfl | ⟨c, _, rfl⟩
    · exact .inr ⟨c', hc', rfl⟩
    · rw [hbroken] at hc'
      exact absurd hc' Memo.not_blames_nil

theorem Content.Becomes.trans {x y z : Content} (h : x.Becomes I F m s y)
    (h' : y.Becomes I G m' s z) (hk : m.KeptIn m')
    (hd : ∀ d, G.declaration? d = none → F.declaration? d = none)
    (he : ∀ e, G.expression? e = none → F.expression? e = none) : x.Becomes I F m' s z := by
  have hmarker : ∀ u, (I.markerType u).mentioned = [] := TypeRef.mentioned_marker _
  cases h with
  | ofClass ht hdrop ha =>
    cases h' with
    | ofClass ht' hdrop' ha' =>
      rw [List.append_assoc]
      refine .ofClass (ht'.trans ht) (fun t hmem => ?_) fun d hmem => ?_
      · rcases hdrop t hmem with hmem | hdrop
        · exact hdrop' t hmem
        · exact .inr (hdrop.mono hk)
      · rcases List.mem_append.mp hmem with hmem | hmem
        · exact ha d hmem
        · exact hd d (ha' d hmem)
  | ofFunction ht ho hb =>
    cases h' with
    | ofFunction ht' ho' hb' =>
      refine .ofFunction ?_ (ho'.trans ho) ?_
      · exact broken_trans TypeRef.mentioned (fun _ c => I.markerType c.symbol) (fun _ _ => hmarker _)
          ht ht' hk
      · rcases hb' with rfl | ⟨e, hfresh, rfl⟩
        · exact hb
        · exact .inr ⟨e, he e hfresh, rfl⟩
  | ofProperty ho =>
    cases h' with
    | ofProperty ho' => exact .ofProperty (ho'.trans ho)
  | ofField h =>
    cases h' with
    | ofField h' =>
      exact .ofField (broken_trans (fun f : FieldInfo => f.type.mentioned) (fun f c =>
        { f with type := I.markerType c.symbol, initializer := none }) (fun _ _ => hmarker _) h h' hk)
  | ofVariable h =>
    cases h' with
    | ofVariable h' =>
      exact .ofVariable (broken_trans (fun v : VariableInfo => v.type.mentioned) (fun v c =>
        { v with type := I.markerType c.symbol, initializer := none }) (fun _ _ => hmarker _) h h' hk)
  | ofParameter h =>
    cases h' with
    | ofParameter h' =>
      exact .ofParameter (broken_trans (fun p : ParameterInfo => p.types.flatMap TypeRef.mentioned) (fun p c =>
        p.broken (I.markerType c.symbol)) (fun p c => p.mentioned_broken I c.symbol) h h' hk)
  | ofTypeParameter h =>
    cases h' with
    | ofTypeParameter h' =>
      refine .ofTypeParameter ?_
      rcases h' with rfl | h'
      · rcases h with rfl | ⟨c, hc, rfl⟩
        · exact .inl rfl
        · exact .inr ⟨c, hk _ _ hc, rfl⟩
      · exact .inr h'
  | ofEnumEntry => cases h' with | ofEnumEntry => exact .ofEnumEntry
  | ofInitializer h =>
    cases h' with
    | ofInitializer h' =>
      refine .ofInitializer ?_
      rcases h' with rfl | ⟨e, hfresh, rfl⟩
      · exact h
      · exact .inr ⟨e, he e hfresh, rfl⟩

theorem Declaration.Becomes.refl (x : Declaration) : x.Becomes I F m x :=
  ⟨rfl, rfl, rfl, rfl, rfl, .refl _⟩

theorem Declaration.Becomes.trans {x y z : Declaration} (h : x.Becomes I F m y)
    (h' : y.Becomes I G m' z) (hk : m.KeptIn m')
    (hd : ∀ d, G.declaration? d = none → F.declaration? d = none)
    (he : ∀ e, G.expression? e = none → F.expression? e = none) : x.Becomes I F m' z where
  symbol := h'.symbol.trans h.symbol
  name := h'.name.trans h.name
  origin := h'.origin.trans h.origin
  parent := h'.parent.trans h.parent
  span := h'.span.trans h.span
  content := h.content.trans (h.symbol ▸ h'.content) hk hd he

theorem Declaration.Becomes.isClass {x y : Declaration} (h : x.Becomes I F m y) :
    y.isClass = x.isClass := by
  have hc := h.content
  unfold Declaration.isClass Declaration.class?
  generalize x.content = c at hc
  generalize y.content = c' at hc
  cases hc <;> rfl

theorem Declaration.Becomes.parentDeclaration? {x y : Declaration} (h : x.Becomes I F m y) :
    y.parentDeclaration? = x.parentDeclaration? := by
  unfold Declaration.parentDeclaration?
  rw [h.parent]

end

/-! ## more members -/

/-- a class with more members -/
def Declaration.enlist (added : List DeclarationId) (x : Declaration) : Declaration :=
  x.mapClass fun c => { c with members := c.members ++ added }

namespace Declaration

section
variable {x : Declaration}

theorem enlist_nil : x.enlist [] = x := by
  obtain ⟨_, _, _, _, _, content⟩ := x
  cases content <;> simp [enlist, mapClass]

theorem enlist_append {a b : List DeclarationId} :
    x.enlist (a ++ b) = (x.enlist a).enlist b := by
  obtain ⟨_, _, _, _, _, content⟩ := x
  cases content <;> simp [enlist, mapClass]

theorem enlist_of_not_isClass {added : List DeclarationId} (h : x.isClass = false) :
    x.enlist added = x := by
  obtain ⟨_, _, _, _, _, content⟩ := x
  cases content <;> first | rfl | (simp [isClass, class?] at h)

theorem becomes_enlist {I : Intrinsics} {F : Forest} {m : Memo} {added : List DeclarationId}
    (h : ∀ d ∈ added, F.declaration? d = none) : x.Becomes I F m (x.enlist added) := by
  obtain ⟨_, _, _, _, _, content⟩ := x
  cases content with
  | ofClass c => exact ⟨rfl, rfl, rfl, rfl, rfl, .ofClass (List.Sublist.refl _) (fun _ ht => .inl ht) h⟩
  | _ => exact .refl _

end

end Declaration

/-! ## a whole pass -/

/-- a declaration that owns its symbol, and whose parent link points at one that was there before it -/
structure Forest.Seats (F : Forest) (d : DeclarationId) (x : Declaration) : Prop where
  owner : F.owner? x.symbol = some d
  parent : ∀ p, x.parentDeclaration? = some p → (F.declaration? p).isSome
  older : ∀ p, x.parentDeclaration? = some p → p.index < d.index

/-- the parent links of declarations point at declarations that are there -/
def Forest.ParentsKnown (F : Forest) : Prop :=
  ∀ d x p, F.declaration? d = some x → x.parentDeclaration? = some p → (F.declaration? p).isSome

namespace Forest

/-- the class around a class is there -/
theorem isSome_of_enclosingClass {F : Forest} (hp : F.ParentsKnown) {d a : DeclarationId}
    (h : F.enclosingClass d = some a) : (F.declaration? a).isSome := by
  obtain ⟨b, hb, h⟩ := Option.bind_eq_some_iff.mp h
  obtain ⟨y, hy, h⟩ := Option.bind_eq_some_iff.mp h
  split at h
  · obtain rfl := Option.some.inj h
    exact Option.isSome_iff_exists.mpr ⟨y, hy⟩
  · obtain ⟨ha, _⟩ := Option.filter_eq_some_iff.mp h
    have hya : y.parentDeclaration? = some a := by
      simpa [Forest.parentDeclaration?, hy] using ha
    exact hp b y a hy hya
  · cases h

end Forest

instance (F : Forest) : Decidable F.ParentsKnown :=
  decidable_of_iff
    (∀ x ∈ F.declarations.toList, ∀ p ∈ x.parentDeclaration?.toList, (F.declaration? p).isSome) <| by
    constructor
    · intro h d x p hx hp
      exact h x (Array.mem_toList_iff.mpr (Array.mem_of_getElem? hx)) p (Option.mem_toList.mpr hp)
    · intro h x hx p hp
      obtain ⟨i, hi⟩ := Array.mem_iff_getElem?.mp (Array.mem_toList_iff.mp hx)
      exact h ⟨i⟩ x p hi (Option.mem_toList.mp hp)

structure Pass.Frames (I : Intrinsics) (T K : DeclarationId → Prop) (p q : Pass) : Prop where
  name : q.forest.name = p.forest.name
  files : q.forest.files = p.forest.files
  symbol? : ∀ s x, p.forest.symbol? s = some x → q.forest.symbol? s = some x
  declaration? : ∀ d x, p.forest.declaration? d = some x →
    ∃ y, q.forest.declaration? d = some y ∧ x.Becomes I p.forest q.memo y
      ∧ (¬ T d → ∃ added, y = x.enlist added ∧ (¬ K d → added = []))
  expression? : ∀ e x, p.forest.expression? e = some x → q.forest.expression? e = some x
  fresh : ∀ d x, p.forest.declaration? d = none → q.forest.declaration? d = some x →
    q.forest.Seats d x
  owners : ∀ s x d, p.forest.symbol? s = none → q.forest.symbol? s = some x → x.owner = some d →
    p.forest.declaration? d = none
  memo : p.memo.KeptIn q.memo
  examined : p.examined ⊆ q.examined
  repairs : ∃ l, q.repairs = p.repairs ++ l ∧ ∀ r ∈ l, ∃ d, r.node = .declaration d ∧ T d

namespace Pass.Frames

section
variable {I : Intrinsics} {T K T' K' : DeclarationId → Prop} {p q r : Pass}

theorem refl (p : Pass) : Frames I T K p p where
  name := rfl
  files := rfl
  symbol? := fun _ _ h => h
  declaration? := fun _ x h =>
    ⟨x, h, .refl x, fun _ => ⟨[], Declaration.enlist_nil.symm, fun _ => rfl⟩⟩
  expression? := fun _ _ h => h
  fresh := by
    intro d x h h'
    rw [h] at h'
    cases h'
  owners := by
    intro s x d h h'
    rw [h] at h'
    cases h'
  memo := .refl _
  examined := fun _ h => h
  repairs := ⟨[], (List.append_nil _).symm, fun _ hr => absurd hr List.not_mem_nil⟩

theorem mono (h : Frames I T K p q) (hT : ∀ d, T d → T' d) (hK : ∀ d, K d → K' d) :
    Frames I T' K' p q where
  name := h.name
  files := h.files
  symbol? := h.symbol?
  declaration? := fun d x hx => by
    obtain ⟨y, hy, hb, he⟩ := h.declaration? d x hx
    refine ⟨y, hy, hb, fun hnT => ?_⟩
    obtain ⟨added, e, ha⟩ := he fun ht => hnT (hT d ht)
    exact ⟨added, e, fun hnK => ha fun hk => hnK (hK d hk)⟩
  expression? := h.expression?
  fresh := h.fresh
  owners := h.owners
  memo := h.memo
  examined := h.examined
  repairs := by
    obtain ⟨l, e, hl⟩ := h.repairs
    exact ⟨l, e, fun r hr => (hl r hr).imp fun d hd => ⟨hd.1, hT d hd.2⟩⟩

/-- what a declaration is later is what may become of it -/
theorem becomes (h : Frames I T K p q) {d : DeclarationId} {x y : Declaration}
    (hx : p.forest.declaration? d = some x) (hy : q.forest.declaration? d = some y) :
    x.Becomes I p.forest q.memo y := by
  obtain ⟨y', hy', hb, _⟩ := h.declaration? d x hx
  rwa [Option.some.inj (hy.symm.trans hy')]

theorem exists_becomes (h : Frames I T K p q) {d : DeclarationId}
    (hd : (p.forest.declaration? d).isSome) : ∃ x y, p.forest.declaration? d = some x
      ∧ q.forest.declaration? d = some y ∧ x.Becomes I p.forest q.memo y := by
  obtain ⟨x, hx⟩ := Option.isSome_iff_exists.mp hd
  obtain ⟨y, hy, hb, _⟩ := h.declaration? d x hx
  exact ⟨x, y, hx, hy, hb⟩

theorem declaration?_none (h : Frames I T K p q) {d : DeclarationId}
    (hd : q.forest.declaration? d = none) : p.forest.declaration? d = none := by
  cases e : p.forest.declaration? d with
  | none => rfl
  | some x =>
    obtain ⟨y, hy, _⟩ := h.declaration? d x e
    rw [hd] at hy
    cases hy

theorem expression?_none (h : Frames I T K p q) {e : ExpressionId}
    (he : q.forest.expression? e = none) : p.forest.expression? e = none := by
  cases e' : p.forest.expression? e with
  | none => rfl
  | some x =>
    have := h.expression? e x e'
    rw [he] at this
    cases this

theorem owner? (h : Frames I T K p q) {s : SymbolId} {d : DeclarationId}
    (hs : p.forest.owner? s = some d) : q.forest.owner? s = some d := by
  obtain ⟨x, hx, ho⟩ := Option.bind_eq_some_iff.mp hs
  exact Option.bind_eq_some_iff.mpr ⟨x, h.symbol? s x hx, ho⟩

theorem isSome (h : Frames I T K p q) {d : DeclarationId}
    (hd : (p.forest.declaration? d).isSome) : (q.forest.declaration? d).isSome := by
  obtain ⟨x, hx⟩ := Option.isSome_iff_exists.mp hd
  obtain ⟨y, hy, _⟩ := h.declaration? d x hx
  exact Option.isSome_iff_exists.mpr ⟨y, hy⟩

theorem seats (h : Frames I T K p q) {d : DeclarationId} {x y : Declaration} {m : Memo}
    {F : Forest} (hs : p.forest.Seats d x) (hb : x.Becomes I F m y) : q.forest.Seats d y where
  owner := by
    rw [hb.symbol]
    exact h.owner? hs.owner
  parent := fun p' hp => h.isSome (hs.parent p' (hb.parentDeclaration? ▸ hp))
  older := fun p' hp => hs.older p' (hb.parentDeclaration? ▸ hp)

theorem trans (h : Frames I T K p q) (h' : Frames I T K q r) : Frames I T K p r where
  name := h'.name.trans h.name
  files := h'.files.trans h.files
  symbol? := fun s x hx => h'.symbol? s x (h.symbol? s x hx)
  declaration? := fun d x hx => by
    obtain ⟨y, hy, hb, he⟩ := h.declaration? d x hx
    obtain ⟨z, hz, hb', he'⟩ := h'.declaration? d y hy
    refine ⟨z, hz, hb.trans hb' h'.memo (fun _ => h.declaration?_none)
      (fun _ => h.expression?_none), fun hT => ?_⟩
    obtain ⟨added, rfl, ha⟩ := he hT
    obtain ⟨added', rfl, ha'⟩ := he' hT
    exact ⟨added ++ added', Declaration.enlist_append.symm, fun hK => by rw [ha hK, ha' hK]; rfl⟩
  expression? := fun e x hx => h'.expression? e x (h.expression? e x hx)
  fresh := fun d z hd hz => by
    cases hy : q.forest.declaration? d with
    | none => exact h'.fresh d z hy hz
    | some y =>
      have hb := h'.becomes hy hz
      exact h'.seats (h.fresh d y hd hy) hb
  owners := fun s x d hs hx hd => by
    cases hy : q.forest.symbol? s with
    | none => exact h.declaration?_none (h'.owners s x d hy hx hd)
    | some y =>
      obtain rfl := Option.some.inj (hx.symm.trans (h'.symbol? s y hy))
      exact h.owners s x d hs hy hd
  memo := h.memo.trans h'.memo
  examined := fun d hd => h'.examined (h.examined hd)
  repairs := by
    obtain ⟨l, e, hl⟩ := h.repairs
    obtain ⟨l', e', hl'⟩ := h'.repairs
    refine ⟨l ++ l', by rw [e', e, List.append_assoc], fun r hr => ?_⟩
    rcases List.mem_append.mp hr with hr | hr
    · exact hl r hr
    · exact hl' r hr

/-- what is out of scope stays, unless it is a class that is given members -/
theorem declaration?_eq (h : Frames I T K p q) {d : DeclarationId} {x : Declaration}
    (hx : p.forest.declaration? d = some x) (hT : ¬ T d) (hK : ¬ K d ∨ x.isClass = false) :
    q.forest.declaration? d = some x := by
  obtain ⟨y, hy, _, he⟩ := h.declaration? d x hx
  obtain ⟨added, rfl, ha⟩ := he hT
  rw [hy]
  rcases hK with hK | hK
  · rw [ha hK, Declaration.enlist_nil]
  · rw [Declaration.enlist_of_not_isClass hK]

theorem parentsKnown (h : Frames I T K p q) (hp : p.forest.ParentsKnown) :
    q.forest.ParentsKnown := by
  intro d y a hy ha
  cases hx : p.forest.declaration? d with
  | none => exact (h.fresh d y hx hy).parent a ha
  | some x =>
    have hb := h.becomes hx hy
    exact h.isSome (hp d x a hx (hb.parentDeclaration? ▸ ha))

/-! ## the graph of classifiers -/

theorem parentDeclaration? (h : Frames I T K p q) {d : DeclarationId} {x : Declaration}
    (hx : p.forest.declaration? d = some x) :
    q.forest.parentDeclaration? d = p.forest.parentDeclaration? d := by
  obtain ⟨y, hy, hb, _⟩ := h.declaration? d x hx
  simp [Forest.parentDeclaration?, hx, hy, hb.parentDeclaration?]

theorem any_isClass (h : Frames I T K p q) {d : DeclarationId}
    (hd : (p.forest.declaration? d).isSome) :
    (q.forest.declaration? d).any Declaration.isClass
      = (p.forest.declaration? d).any Declaration.isClass := by
  obtain ⟨x, y, hx, hy, hb⟩ := h.exists_becomes hd
  simp [hx, hy, hb.isClass]

/-- the class around a class does not change -/
theorem enclosingClass (h : Frames I T K p q) (hp : p.forest.ParentsKnown) {d : DeclarationId}
    {x : Declaration} (hx : p.forest.declaration? d = some x) :
    q.forest.enclosingClass d = p.forest.enclosingClass d := by
  unfold Forest.enclosingClass
  rw [h.parentDeclaration? hx]
  cases ha : p.forest.parentDeclaration? d with
  | none => rfl
  | some a =>
    have hxa : x.parentDeclaration? = some a := by
      simpa [Forest.parentDeclaration?, hx] using ha
    obtain ⟨xa, ya, ha', hya, hb⟩ := h.exists_becomes (hp d x a hx hxa)
    have hc := hb.content
    rw [Option.bind_some, Option.bind_some, ha', hya, Option.bind_some, Option.bind_some]
    generalize xa.content = c at hc
    generalize ya.content = c' at hc
    cases hc <;> try rfl
    -- the class of an enum entry sits in the class that lists the entry
    rw [h.parentDeclaration? ha']
    cases hb' : p.forest.parentDeclaration? a with
    | none => rfl
    | some b =>
      have hab : xa.parentDeclaration? = some b := by
        simpa [Forest.parentDeclaration?, ha'] using hb'
      rw [Option.filter_some, Option.filter_some, h.any_isClass (hp a xa b ha' hab)]

/-- the class around a class is there still, if there is one -/
theorem enclosing_cases (h : Frames I T K p q) (hp : p.forest.ParentsKnown) {d : DeclarationId}
    {x : Declaration} (hx : p.forest.declaration? d = some x) :
    (p.forest.enclosingClass d).bind p.forest.declaration? = none
        ∧ (q.forest.enclosingClass d).bind q.forest.declaration? = none
      ∨ ∃ y z, (p.forest.enclosingClass d).bind p.forest.declaration? = some y
        ∧ (q.forest.enclosingClass d).bind q.forest.declaration? = some z
        ∧ z.origin = y.origin ∧ z.symbol = y.symbol := by
  rw [h.enclosingClass hp hx]
  cases ha : p.forest.enclosingClass d with
  | none => exact .inl ⟨rfl, rfl⟩
  | some a =>
    obtain ⟨y, z, hy, hz, hb⟩ := h.exists_becomes (Forest.isSome_of_enclosingClass hp ha)
    exact .inr ⟨y, z, hy, hz, hb.origin, hb.symbol⟩

theorem lacksEnclosing (h : Frames I T K p q) (hp : p.forest.ParentsKnown) {d : DeclarationId}
    {x : Declaration} (hx : p.forest.declaration? d = some x) :
    q.forest.lacksEnclosing d = p.forest.lacksEnclosing d := by
  unfold Forest.lacksEnclosing
  rcases h.enclosing_cases hp hx with ⟨hy, hz⟩ | ⟨y, z, hy, hz, horigin, _⟩
  · rw [hy, hz]
  · rw [hy, hz]
    dsimp only
    rw [horigin]

theorem enclosingSymbol? (h : Frames I T K p q) (hp : p.forest.ParentsKnown) {d : DeclarationId}
    {x : Declaration} (hx : p.forest.declaration? d = some x) :
    q.forest.enclosingSymbol? d = p.forest.enclosingSymbol? d := by
  unfold Forest.enclosingSymbol?
  rcases h.enclosing_cases hp hx with ⟨hy, hz⟩ | ⟨y, z, hy, hz, _, hsymbol⟩
  · rw [hy, hz]
  · rw [hy, hz, Option.map_some, Option.map_some, hsymbol]

/-- **What was sound as long as others are rests on nothing new.** -/
theorem eases (h : Frames I T K p q) (hp : p.forest.ParentsKnown) :
    p.forest.Eases q.forest := by
  intro s needs isClass hs
  obtain ⟨d, x, ho, hx, hmissing, hs⟩ := Forest.exists_of_standing_rests hs
  obtain ⟨y, hy, hb, _⟩ := h.declaration? d x hx
  have hc := hb.content
  have hm : y.origin ≠ .missing := by rw [hb.origin]; exact hmissing
  rw [Forest.standing_of_owner? (h.owner? ho) hy]
  unfold Forest.standingOf at hs ⊢
  rw [if_neg hmissing] at hs
  rw [if_neg hm]
  generalize x.content = cx at hc hs
  generalize y.content = cy at hc
  cases hc with
  | @ofClass c superTypes added ht _ _ =>
    dsimp only at hs ⊢
    have hneeds : ({ c with superTypes := superTypes, members := c.members ++ added }
        : ClassInfo).needsEnclosing = c.needsEnclosing := rfl
    rw [hneeds, h.lacksEnclosing hp hx]
    cases hlack : c.needsEnclosing && p.forest.lacksEnclosing d with
    | true => rw [hlack] at hs; cases hs
    | false =>
      rw [hlack] at hs
      obtain ⟨rfl, rfl⟩ := Standing.rests.inj hs
      refine ⟨_, rfl, fun u hu => ?_⟩
      unfold Forest.classNeeds at hu ⊢
      rw [h.enclosingSymbol? hp hx] at hu
      rcases List.mem_append.mp hu with hu | hu
      · obtain ⟨t, htm, hu⟩ := List.mem_flatMap.mp hu
        exact List.mem_append_left _ (List.mem_flatMap.mpr ⟨t, ht.subset htm, hu⟩)
      · exact List.mem_append_right _ hu
  | ofTypeParameter hp' =>
    obtain ⟨rfl, rfl⟩ := Standing.rests.inj hs
    refine ⟨_, rfl, ?_⟩
    rcases hp' with rfl | ⟨c, _, rfl⟩
    · exact List.Subset.refl _
    · intro u hu
      simp [Intrinsics.markerType, TypeRef.mentioned_marker] at hu
  | ofFunction | ofProperty | ofField | ofVariable | ofParameter | ofEnumEntry | ofInitializer =>
    obtain ⟨rfl, rfl⟩ := Standing.rests.inj hs
    exact ⟨_, rfl, List.Subset.refl _⟩

/-- a symbol that is not missing never gets so -/
theorem isMissing_eq_false (h : Frames I T K p q) {s : SymbolId}
    (hs : p.forest.isMissing s = false) : q.forest.isMissing s = false := by
  unfold Forest.isMissing Forest.definition? at hs ⊢
  cases ho : p.forest.owner? s with
  | none => simp [ho] at hs
  | some d =>
    cases hx : p.forest.declaration? d with
    | none => simp [ho, hx] at hs
    | some x =>
      obtain ⟨y, hy, hb, _⟩ := h.declaration? d x hx
      simp only [ho, hx, Option.bind_some] at hs
      simp only [h.owner? ho, hy, Option.bind_some, hb.origin, hs]

end

end Pass.Frames

end LinkRepair
