import LinkRepair.Proofs.Forest.Reach
import LinkRepair.Proofs.Repair.Frame
import LinkRepair.Repair.Declarations

/-!
# Forests that grow

The sweep over declarations adds members and initializers.  While one of them is put together, the
declarations that were there before stay as they are, but for a class that lists more members:

* `Forest.HasRoutine`      a function or an initializer is there;
* `Forest.MembersKnown`    whatever classes list as members is there;
* `Forest.Grows D F G`     `G` is `F` with new declarations, some of them listed in classes of `D`;
* `Grows.declare`, `Grows.build`, `Grows.attach`   the ways in which a forest grows;
* `grows_newInitializer`, `grows_copyMember`       what the two kinds of additions do.
-/

namespace LinkRepair

/-- a function or an initializer -/
def Declaration.isRoutine (x : Declaration) : Bool := x.function?.isSome || x.isInitializer

def Forest.HasRoutine (F : Forest) (d : DeclarationId) : Prop :=
  ∃ x, F.declaration? d = some x ∧ x.isRoutine

/-- the members of classes are there -/
def Forest.MembersKnown (F : Forest) : Prop :=
  ∀ d x c, F.declaration? d = some x → x.class? = some c → ∀ a ∈ c.members, (F.declaration? a).isSome

structure Forest.Grows (D : DeclarationId → Prop) (F G : Forest) : Prop where
  name : G.name = F.name
  files : G.files = F.files
  symbol? : ∀ s x, F.symbol? s = some x → G.symbol? s = some x
  expressions : G.expressions = F.expressions
  declaration? : ∀ d x, F.declaration? d = some x → ∃ added, G.declaration? d = some (x.enlist added)
    ∧ (∀ a ∈ added, F.declaration? a = none ∧ G.HasRoutine a) ∧ (¬ D d → added = [])
  fresh : ∀ d x, F.declaration? d = none → G.declaration? d = some x → G.Seats d x
  owners : ∀ s x d, F.symbol? s = none → G.symbol? s = some x → x.owner = some d →
    F.declaration? d = none
  members : F.MembersKnown → G.MembersKnown

theorem Declaration.Becomes.isRoutine {I : Intrinsics} {F : Forest} {m : Memo} {x y : Declaration}
    (h : x.Becomes I F m y) : y.isRoutine = x.isRoutine := by
  have hc := h.content
  unfold Declaration.isRoutine Declaration.function? Declaration.isInitializer
  generalize x.content = c at hc
  generalize y.content = c' at hc
  cases hc <;> rfl

theorem Declaration.Becomes.isSome_function? {I : Intrinsics} {F : Forest} {m : Memo}
    {x y : Declaration} (h : x.Becomes I F m y) : y.function?.isSome = x.function?.isSome := by
  have hc := h.content
  unfold Declaration.function?
  generalize x.content = c at hc
  generalize y.content = c' at hc
  cases hc <;> rfl

theorem Declaration.Becomes.isInitializer {I : Intrinsics} {F : Forest} {m : Memo}
    {x y : Declaration} (h : x.Becomes I F m y) : y.isInitializer = x.isInitializer := by
  have hc := h.content
  unfold Declaration.isInitializer
  generalize x.content = c at hc
  generalize y.content = c' at hc
  cases hc <;> rfl

theorem Pass.Frames.hasRoutine {I : Intrinsics} {T K : DeclarationId → Prop} {p q : Pass}
    (h : Pass.Frames I T K p q) {a : DeclarationId} (ha : p.forest.HasRoutine a) :
    q.forest.HasRoutine a := by
  obtain ⟨x, hx, hr⟩ := ha
  obtain ⟨y, hy, hb, _⟩ := h.declaration? a x hx
  exact ⟨y, hy, hb.isRoutine.trans hr⟩

namespace Forest

theorem hasRoutine_of_function? {F : Forest} {d : DeclarationId} (h : (F.function? d).isSome) :
    F.HasRoutine d := by
  obtain ⟨f, hf⟩ := Option.isSome_iff_exists.mp h
  obtain ⟨x, hx, hxf⟩ := Option.bind_eq_some_iff.mp hf
  exact ⟨x, hx, by rw [Declaration.isRoutine, hxf]; rfl⟩

theorem hasRoutine_of_initializer? {F : Forest} {d a : DeclarationId}
    (h : F.initializer? d = some a) : F.HasRoutine a := by
  obtain ⟨c, _, hfind⟩ := Option.bind_eq_some_iff.mp h
  have hany := List.find?_some hfind
  obtain ⟨x, hx, hi⟩ := (Option.any_eq_true _ _).mp hany
  exact ⟨x, hx, by rw [Declaration.isRoutine, hi, Bool.or_true]⟩

/-- an edit that makes nothing of a function or an initializer but such a one -/
theorem HasRoutine.update {G : Forest} {a d : DeclarationId} {g : Declaration → Declaration}
    (h : G.HasRoutine a) (hg : ∀ x, (g x).isRoutine = x.isRoutine) :
    (G.updateDeclaration d g).HasRoutine a := by
  obtain ⟨x, hx, hr⟩ := h
  unfold HasRoutine
  rw [declaration?_updateDeclaration, hx]
  split
  · exact ⟨g x, rfl, (hg x).trans hr⟩
  · exact ⟨x, rfl, hr⟩

theorem isSome_declaration?_update {G : Forest} {a d : DeclarationId} {g : Declaration → Declaration}
    (h : (G.declaration? a).isSome) : ((G.updateDeclaration d g).declaration? a).isSome := by
  rw [declaration?_updateDeclaration]
  split
  · rwa [Option.isSome_map]
  · exact h

/-- an edit after which a class lists what it listed, or what is there -/
theorem MembersKnown.update {G : Forest} {d : DeclarationId} {g : Declaration → Declaration}
    (h : G.MembersKnown) (hg : ∀ x c, G.declaration? d = some x → (g x).class? = some c →
      ∀ a ∈ c.members, (∃ c', x.class? = some c' ∧ a ∈ c'.members) ∨ (G.declaration? a).isSome) :
    (G.updateDeclaration d g).MembersKnown := by
  intro b y c hy hc a ha
  apply isSome_declaration?_update
  rw [declaration?_updateDeclaration] at hy
  split at hy
  · rename_i e
    obtain ⟨x, hx, rfl⟩ := Option.map_eq_some_iff.mp hy
    rcases hg x c (e ▸ hx) hc a ha with ⟨c', hc', ha'⟩ | ha
    · exact h b x c' hx hc' a ha'
    · exact ha
  · exact h b y c hy hc a ha

/-- an edit that leaves functions as they are -/
theorem function?_update {F : Forest} {d a : DeclarationId} {g : Declaration → Declaration}
    (h : ∀ x, (g x).function? = x.function?) :
    (F.updateDeclaration d g).function? a = F.function? a := by
  unfold function?
  rw [declaration?_updateDeclaration]
  split
  · cases F.declaration? a with
    | none => rfl
    | some x => exact h x
  · rfl

theorem function?_attach (F : Forest) (d child a : DeclarationId) :
    (F.attach (.declaration d) child).function? a = F.function? a := by
  show (updateDeclaration _ d (Declaration.addMember child)).function? a = _
  rw [function?_update, function?_update]
  · exact fun _ => rfl
  · rintro ⟨_, _, _, _, _, content⟩
    cases content <;> rfl

/-! ## look-ups in a forest with one more declaration -/

section
variable (G : Forest) (kind : SymbolKind) (signature : Option Signature) (x : Declaration)

theorem declaration?_size : G.declaration? ⟨G.declarations.size⟩ = none := by
  simp [declaration?]

/-- what is there comes before what is not -/
theorem index_lt_of_none {F : Forest} {a d : DeclarationId} (ha : (F.declaration? a).isSome)
    (hd : F.declaration? d = none) : a.index < d.index := by
  refine Nat.lt_of_lt_of_le (declaration?_isSome.mp ha) (Nat.le_of_not_lt fun hlt => ?_)
  have := declaration?_isSome.mpr hlt
  rw [hd] at this
  cases this

theorem symbol?_addDeclaration (s : SymbolId) :
    (G.addDeclaration x).2.symbol? s
      = if x.symbol = s then (G.symbol? s).map fun y => { y with owner := some (G.addDeclaration x).1 }
        else G.symbol? s := by
  exact symbol?_updateSymbol { G with declarations := G.declarations.push x } _ _ s

theorem declaration?_addSymbol (d : DeclarationId) :
    (G.addSymbol kind signature).2.declaration? d = G.declaration? d := rfl

theorem symbol?_size : G.symbol? (G.addSymbol kind signature).1 = none := by
  simp [addSymbol, symbol?]

variable {G kind signature x}

/-- a new symbol takes the place of none -/
theorem ne_addSymbol {s : SymbolId} {y : Symbol} (h : G.symbol? s = some y) :
    s ≠ (G.addSymbol kind signature).1 := by
  rintro rfl
  rw [symbol?_size] at h
  cases h

/-- a new declaration takes the place of none -/
theorem declaration?_declare_of_some {d : DeclarationId} {y : Declaration}
    (h : G.declaration? d = some y) :
    ((G.addSymbol kind signature).2.addDeclaration x).2.declaration? d = some y := by
  rw [declaration?_addDeclaration, if_neg, declaration?_addSymbol, h]
  rintro rfl
  have hnone := G.declaration?_size
  rw [show (⟨G.declarations.size⟩ : DeclarationId)
    = ((G.addSymbol kind signature).2.addDeclaration x).1 from rfl, h] at hnone
  cases hnone

/-- and its new symbol none of a symbol -/
theorem symbol?_declare_of_some (hs : x.symbol = (G.addSymbol kind signature).1) {s : SymbolId}
    {y : Symbol} (h : G.symbol? s = some y) :
    ((G.addSymbol kind signature).2.addDeclaration x).2.symbol? s = some y := by
  have hne : s ≠ (G.addSymbol kind signature).1 := ne_addSymbol h
  rw [symbol?_addDeclaration, hs, if_neg (Ne.symm hne), symbol?_addSymbol, if_neg hne, h]

theorem owner?_eq_some {s : SymbolId} {d : DeclarationId} (h : G.owner? s = some d) :
    ∃ y, G.symbol? s = some y ∧ y.owner = some d := Option.bind_eq_some_iff.mp h

end

namespace Grows

section
variable {D : DeclarationId → Prop} {F G : Forest}

theorem refl (F : Forest) : Grows D F F where
  name := rfl
  files := rfl
  symbol? := fun _ _ h => h
  expressions := rfl
  declaration? := fun d x h => ⟨[], by rw [Declaration.enlist_nil]; exact h,
    fun a ha => absurd ha List.not_mem_nil, fun _ => rfl⟩
  fresh := by
    intro d x h h'
    rw [h] at h'
    cases h'
  owners := by
    intro s x d h h'
    rw [h] at h'
    cases h'
  members := fun h => h

theorem isSome (h : Grows D F G) {d : DeclarationId} (hd : (F.declaration? d).isSome) :
    (G.declaration? d).isSome := by
  obtain ⟨x, hx⟩ := Option.isSome_iff_exists.mp hd
  obtain ⟨added, hy, _⟩ := h.declaration? d x hx
  exact Option.isSome_iff_exists.mpr ⟨_, hy⟩

theorem none_of_none (h : Grows D F G) {d : DeclarationId} (hd : G.declaration? d = none) :
    F.declaration? d = none := by
  cases e : F.declaration? d with
  | none => rfl
  | some x =>
    obtain ⟨_, hy, _⟩ := h.declaration? d x e
    rw [hd] at hy
    cases hy

/-- a function stays a function -/
theorem isSome_function? (h : Grows D F G) {d : DeclarationId} (hd : (F.function? d).isSome) :
    (G.function? d).isSome := by
  obtain ⟨f, hf⟩ := Option.isSome_iff_exists.mp hd
  obtain ⟨x, hx, hxf⟩ := Option.bind_eq_some_iff.mp hf
  obtain ⟨added, hy, _⟩ := h.declaration? d x hx
  have hplain : x.isClass = false := by
    obtain ⟨_, _, _, _, _, content⟩ := x
    cases content <;> first | rfl | cases hxf
  rw [Declaration.enlist_of_not_isClass hplain] at hy
  exact Option.isSome_iff_exists.mpr ⟨f, Option.bind_eq_some_iff.mpr ⟨x, hy, hxf⟩⟩

/-- what comes next is new -/
theorem next (h : Grows D F G) : F.declaration? ⟨G.declarations.size⟩ = none :=
  h.none_of_none G.declaration?_size

/-- a new symbol, and a new declaration that owns it -/
theorem declare (h : Grows D F G) {kind : SymbolKind} {signature : Option Signature}
    {x : Declaration} (hs : x.symbol = (G.addSymbol kind signature).1)
    (hp : ∀ p, x.parentDeclaration? = some p → (G.declaration? p).isSome)
    (hm : G.MembersKnown → ∀ c, x.class? = some c → ∀ a ∈ c.members, (G.declaration? a).isSome) :
    Grows D F ((G.addSymbol kind signature).2.addDeclaration x).2 := by
  have hsym : ∀ s y, G.symbol? s = some y →
      ((G.addSymbol kind signature).2.addDeclaration x).2.symbol? s = some y :=
    fun _ _ => symbol?_declare_of_some hs
  have hdecl : ∀ d y, G.declaration? d = some y →
      ((G.addSymbol kind signature).2.addDeclaration x).2.declaration? d = some y :=
    fun _ _ => declaration?_declare_of_some
  refine ⟨h.name, h.files, fun s y hy => hsym s y (h.symbol? s y hy), h.expressions, ?_, ?_, ?_, ?_⟩
  · intro d y hy
    obtain ⟨added, he, ha, hno⟩ := h.declaration? d y hy
    refine ⟨added, hdecl d _ he, fun a hmem => ⟨(ha a hmem).1, ?_⟩, hno⟩
    obtain ⟨z, hz, hr⟩ := (ha a hmem).2
    exact ⟨z, hdecl a z hz, hr⟩
  · intro d y hd hy
    rw [declaration?_addDeclaration] at hy
    split at hy
    · rename_i e
      obtain rfl := Option.some.inj hy
      refine ⟨?_, fun p hpp => ?_, fun p hpp => ?_⟩
      · rw [e]
        exact owner?_addDeclaration _ _ (by rw [hs, symbol?_addSymbol, if_pos rfl]; rfl)
      · obtain ⟨z, hz⟩ := Option.isSome_iff_exists.mp (hp p hpp)
        rw [hdecl p z hz]
        rfl
      · rw [e]
        exact declaration?_isSome.mp (hp p hpp)
    · obtain ⟨howner, hparent, holder⟩ := h.fresh d y hd hy
      obtain ⟨z, hz, ho⟩ := owner?_eq_some howner
      refine ⟨by simp [owner?, hsym _ z hz, ho], fun p hpp => ?_, holder⟩
      obtain ⟨w, hw⟩ := Option.isSome_iff_exists.mp (hparent p hpp)
      rw [hdecl p w hw]
      rfl
  · intro s y d hs' hy hd
    rw [symbol?_addDeclaration] at hy
    split at hy
    · obtain ⟨z, _, rfl⟩ := Option.map_eq_some_iff.mp hy
      obtain rfl := Option.some.inj hd
      exact h.next
    · rename_i hne
      rw [symbol?_addSymbol, if_neg (by rw [← hs]; exact Ne.symm hne)] at hy
      exact h.owners s y d hs' hy hd
  · intro hF b y c hy hc a ha
    have hG := h.members hF
    have hsome : (G.declaration? a).isSome := by
      rw [declaration?_addDeclaration] at hy
      split at hy
      · obtain rfl := Option.some.inj hy
        exact hm hG c hc a ha
      · exact hG b y c hy hc a ha
    obtain ⟨z, hz⟩ := Option.isSome_iff_exists.mp hsome
    exact Option.isSome_iff_exists.mpr ⟨z, hdecl a z hz⟩

/-- an edit of a declaration that is new -/
theorem build (h : Grows D F G) {d : DeclarationId} {g : Declaration → Declaration}
    (hd : F.declaration? d = none) (hg : ∀ x, (g x).symbol = x.symbol)
    (hr : ∀ x, (g x).isRoutine = x.isRoutine) (hc : ∀ x, (g x).class? = x.class?)
    (hp : ∀ x p, (g x).parentDeclaration? = some p →
      x.parentDeclaration? = some p ∨ ((G.declaration? p).isSome ∧ p.index < d.index)) :
    Grows D F (G.updateDeclaration d g) := by
  have hsome : ∀ a, (G.declaration? a).isSome →
      ((G.updateDeclaration d g).declaration? a).isSome := fun _ => isSome_declaration?_update
  refine ⟨h.name, h.files, h.symbol?, h.expressions, ?_, ?_, h.owners, fun hF =>
    (h.members hF).update fun x c _ hxc a ha => .inl ⟨c, hc x ▸ hxc, ha⟩⟩
  · intro a x hx
    have hne : d ≠ a := by
      rintro rfl
      rw [hd] at hx
      cases hx
    obtain ⟨added, he, ha, hno⟩ := h.declaration? a x hx
    refine ⟨added, ?_, fun b hb => ⟨(ha b hb).1, (ha b hb).2.update hr⟩, hno⟩
    rw [declaration?_updateDeclaration, if_neg hne, he]
  · intro a y ha hy
    rw [declaration?_updateDeclaration] at hy
    split at hy
    · rename_i e
      obtain ⟨x, hx, rfl⟩ := Option.map_eq_some_iff.mp hy
      obtain ⟨howner, hparent, holder⟩ := h.fresh a x ha hx
      refine ⟨by rw [hg]; exact howner, fun p hpp => hsome p ?_, fun p hpp => ?_⟩
      · exact (hp x p hpp).elim (hparent p) And.left
      · exact (hp x p hpp).elim (holder p) fun hpp => e ▸ hpp.2
    · obtain ⟨howner, hparent, holder⟩ := h.fresh a y ha hy
      exact ⟨howner, fun p hpp => hsome p (hparent p hpp), holder⟩

/-- a new declaration becomes a member of a class that may grow -/
theorem attach (h : Grows D F G) {d child : DeclarationId} (hc : F.declaration? child = none)
    (hr : G.HasRoutine child) (hd : D d) (hs : (F.declaration? d).isSome) :
    Grows D F (G.attach (.declaration d) child) := by
  have hr' : (G.updateDeclaration child fun x =>
    { x with parent := some (.declaration d) }).HasRoutine child := hr.update fun _ => rfl
  have h' : Grows D F (G.updateDeclaration child fun x => { x with parent := some (.declaration d) }) := by
    refine h.build hc (fun _ => rfl) (fun _ => rfl) (fun _ => rfl) fun x p hp => .inr ?_
    obtain rfl := Option.some.inj hp
    exact ⟨h.isSome hs, index_lt_of_none hs hc⟩
  show Grows D F (updateDeclaration _ d (Declaration.addMember child))
  generalize G.updateDeclaration child _ = H at h' hr' ⊢
  have hadd : ∀ x, (Declaration.addMember child x).isRoutine = x.isRoutine := by
    rintro ⟨_, _, _, _, _, content⟩
    cases content <;> rfl
  have hsome : ∀ a, (H.declaration? a).isSome →
      ((H.updateDeclaration d (Declaration.addMember child)).declaration? a).isSome := fun _ =>
    isSome_declaration?_update
  refine ⟨h'.name, h'.files, h'.symbol?, h'.expressions, ?_, ?_, h'.owners, fun hF =>
    (h'.members hF).update fun x c _ hc a ha => ?_⟩
  · intro a x hx
    obtain ⟨added, he, ha, hno⟩ := h'.declaration? a x hx
    rw [declaration?_updateDeclaration, he]
    split
    · rename_i e
      obtain rfl := e
      refine ⟨added ++ [child], by rw [Declaration.enlist_append]; rfl, fun b hb => ?_,
        fun hnD => absurd hd hnD⟩
      rcases List.mem_append.mp hb with hb | hb
      · exact ⟨(ha b hb).1, (ha b hb).2.update hadd⟩
      · rw [List.mem_singleton.mp hb]
        exact ⟨hc, hr'.update hadd⟩
    · exact ⟨added, rfl, fun b hb => ⟨(ha b hb).1, (ha b hb).2.update hadd⟩, hno⟩
  · intro a y ha hy
    rw [declaration?_updateDeclaration, if_neg] at hy
    · obtain ⟨howner, hparent, holder⟩ := h'.fresh a y ha hy
      exact ⟨howner, fun p hpp => hsome p (hparent p hpp), holder⟩
    · rintro rfl
      rw [ha] at hs
      cases hs
  · rw [Declaration.addMember, Declaration.class?_mapClass, Option.map_eq_some_iff] at hc
    obtain ⟨c', hc', rfl⟩ := hc
    rcases List.mem_append.mp ha with ha | ha
    · exact .inl ⟨c', hc', ha⟩
    · obtain ⟨z, hz, _⟩ := hr'
      rw [List.mem_singleton.mp ha]
      exact .inr (Option.isSome_iff_exists.mpr ⟨z, hz⟩)

end

end Grows

/-! ## sizes -/

section
variable {G : Forest}

theorem size_addDeclaration (x : Declaration) :
    (G.addDeclaration x).2.declarations.size = G.declarations.size + 1 := by
  simp [addDeclaration, updateSymbol]

theorem size_updateDeclaration (d : DeclarationId) (g : Declaration → Declaration) :
    (G.updateDeclaration d g).declarations.size = G.declarations.size := by
  simp [updateDeclaration]

theorem size_attach (d child : DeclarationId) :
    (G.attach (.declaration d) child).declarations.size = G.declarations.size := by
  simp [attach, updateDeclaration]

end

/-! ## initializers and copies -/

section
variable {D : DeclarationId → Prop} {F G : Forest}

/-- **A class gets an initializer**, and nothing else changes. -/
theorem grows_newInitializer {d : DeclarationId} {origin : Origin} (hD : D d)
    (hd : (F.declaration? d).isSome) : Grows D F (F.newInitializer d origin).2 := by
  refine Grows.attach (Grows.declare (.refl F) rfl ?_ ?_) (F.declaration?_size)
    ⟨_, (declaration?_addDeclaration _ _ _).trans (if_pos rfl), rfl⟩ hD hd
  · intro p hp
    cases hp
  · intro _ c hc
    cases hc

/-- a new declaration that is no class is there with the class around it as its parent -/
theorem declaration?_attach_declare (d : DeclarationId) (kind : SymbolKind)
    (signature : Option Signature) {x : Declaration} (hx : x.isClass = false) :
    (((F.addSymbol kind signature).2.addDeclaration x).2.attach (.declaration d)
        ⟨F.declarations.size⟩).declaration? ⟨F.declarations.size⟩
      = some { x with parent := some (.declaration d) } := by
  have hnew : ((F.addSymbol kind signature).2.addDeclaration x).2.declaration?
      ⟨F.declarations.size⟩ = some x := (declaration?_addDeclaration _ _ _).trans (if_pos rfl)
  show (updateDeclaration _ d (Declaration.addMember _)).declaration? _ = _
  rw [declaration?_updateDeclaration, declaration?_updateDeclaration, if_pos rfl, hnew]
  obtain ⟨_, _, _, _, _, content⟩ := x
  cases content with
  | ofClass => cases hx
  | _ => split <;> rfl

/-- and that class lists it last -/
theorem class?_attach_declare {d : DeclarationId} {c : ClassInfo} (hc : F.class? d = some c)
    (kind : SymbolKind) (signature : Option Signature) (x : Declaration) :
    (((F.addSymbol kind signature).2.addDeclaration x).2.attach (.declaration d)
        ⟨F.declarations.size⟩).class? d
      = some { c with members := c.members ++ [⟨F.declarations.size⟩] } := by
  obtain ⟨y, hy, hyc⟩ := Option.bind_eq_some_iff.mp hc
  have hold : ((F.addSymbol kind signature).2.addDeclaration x).2.declaration? d = some y :=
    declaration?_declare_of_some hy
  have hne : ⟨F.declarations.size⟩ ≠ d := by
    rintro rfl
    rw [F.declaration?_size] at hy
    cases hy
  show (updateDeclaration _ d (Declaration.addMember _)).class? d = _
  rw [class?, declaration?_updateDeclaration, if_pos rfl, declaration?_updateDeclaration,
    if_neg hne, hold, Option.map_some, Option.bind_some, Declaration.addMember,
    Declaration.class?_mapClass, hyc]
  rfl

/-- a new initializer is one, and its class lists it last -/
theorem newInitializer_spec (F : Forest) (d : DeclarationId) (origin : Origin) :
    ((F.newInitializer d origin).2.declaration? (F.newInitializer d origin).1).any
        Declaration.isInitializer
      ∧ ∀ c, F.class? d = some c → (F.newInitializer d origin).2.class? d
        = some { c with members := c.members ++ [(F.newInitializer d origin).1] } := by
  refine ⟨?_, fun c hc => class?_attach_declare hc _ _ _⟩
  show ((attach _ (.declaration d) ⟨F.declarations.size⟩).declaration? ⟨F.declarations.size⟩).any _
  rw [declaration?_attach_declare d _ _ rfl]
  rfl

theorem hasRoutine_newInitializer (F : Forest) (d : DeclarationId) (origin : Origin) :
    (F.newInitializer d origin).2.HasRoutine (F.newInitializer d origin).1 := by
  obtain ⟨x, hx, hi⟩ := (Option.any_eq_true _ _).mp (F.newInitializer_spec d origin).1
  exact ⟨x, hx, by rw [Declaration.isRoutine, hi, Bool.or_true]⟩

theorem grows_copyTypeParameter {function d : DeclarationId} (h : Grows D F G)
    (hf : function.index < G.declarations.size) :
    Grows D F (G.copyTypeParameter function d).2
      ∧ (∀ c ∈ (G.copyTypeParameter function d).1.2, F.declaration? c = none)
      ∧ G.declarations.size ≤ (G.copyTypeParameter function d).2.declarations.size := by
  unfold copyTypeParameter
  split
  · exact ⟨h, fun c hc => absurd hc List.not_mem_nil, Nat.le_refl _⟩
  · rename_i x hx
    refine ⟨Grows.declare h rfl ?_ fun hG c hc => hG d x c hx hc, ?_, ?_⟩
    · intro p hp
      obtain rfl := Option.some.inj hp
      exact declaration?_isSome.mpr hf
    · intro c hc
      rw [List.mem_singleton.mp hc]
      exact h.next
    · rw [size_addDeclaration]
      exact Nat.le_succ _

theorem grows_copyTypeParameters {function : DeclarationId} : ∀ (ds : List DeclarationId)
    {G : Forest}, Grows D F G → function.index < G.declarations.size →
    Grows D F (copyTypeParameters function G ds).2
      ∧ (∀ c ∈ (copyTypeParameters function G ds).1.2, F.declaration? c = none)
      ∧ G.declarations.size ≤ (copyTypeParameters function G ds).2.declarations.size := by
  intro ds
  induction ds with
  | nil => intro G h _; exact ⟨h, fun c hc => absurd hc List.not_mem_nil, Nat.le_refl _⟩
  | cons d ds ih =>
    intro G h hf
    obtain ⟨h₁, hc₁, hs₁⟩ := grows_copyTypeParameter (d := d) h hf
    obtain ⟨h₂, hc₂, hs₂⟩ := ih h₁ (Nat.lt_of_lt_of_le hf hs₁)
    refine ⟨h₂, fun c hc => ?_, Nat.le_trans hs₁ hs₂⟩
    rcases List.mem_append.mp hc with hc | hc
    · exact hc₁ c hc
    · exact hc₂ c hc

theorem grows_renameBounds {r : Renaming} : ∀ {copies : List DeclarationId} {G : Forest},
    Grows D F G → (∀ c ∈ copies, F.declaration? c = none) →
    Grows D F (renameBounds r G copies)
      ∧ (renameBounds r G copies).declarations.size = G.declarations.size := by
  intro copies
  induction copies with
  | nil => intro G h _; exact ⟨h, rfl⟩
  | cons d copies ih =>
    intro G h hc
    have hd := h.build (hc d List.mem_cons_self) (g := Declaration.mapTypeParameter fun p =>
      ⟨p.bounds.map (TypeRef.rename r.apply)⟩) (fun x => by unfold Declaration.mapTypeParameter; split <;> rfl)
      (fun x => by obtain ⟨_, _, _, _, _, content⟩ := x; cases content <;> rfl)
      (fun x => by obtain ⟨_, _, _, _, _, content⟩ := x; cases content <;> rfl)
      (fun x p hp => .inl (by unfold Declaration.mapTypeParameter at hp; split at hp <;> exact hp))
    obtain ⟨h', hs⟩ := ih hd fun c hm => hc c (List.mem_cons_of_mem _ hm)
    exact ⟨h', hs.trans (size_updateDeclaration _ _)⟩

theorem grows_copyParameter {r : Renaming} {function d : DeclarationId} (h : Grows D F G)
    (hf : function.index < G.declarations.size) :
    Grows D F (copyParameter r function G d).2
      ∧ (∀ c ∈ (copyParameter r function G d).1, F.declaration? c = none)
      ∧ G.declarations.size ≤ (copyParameter r function G d).2.declarations.size := by
  unfold copyParameter
  split
  · exact ⟨h, fun c hc => absurd hc List.not_mem_nil, Nat.le_refl _⟩
  · rename_i x hx
    refine ⟨Grows.declare h rfl ?_ fun hG c hc => hG d x c hx ?_, ?_, ?_⟩
    · intro p hp
      obtain rfl := Option.some.inj hp
      exact declaration?_isSome.mpr hf
    · obtain ⟨_, _, _, _, _, content⟩ := x
      cases content <;> exact hc
    · intro c hc
      rw [List.mem_singleton.mp hc]
      exact h.next
    · rw [size_addDeclaration]
      exact Nat.le_succ _

theorem grows_copyParameters (r : Renaming) {function : DeclarationId} :
    ∀ (ds : List DeclarationId) {G : Forest}, Grows D F G → function.index < G.declarations.size →
    Grows D F (copyParameters r function G ds).2
      ∧ (∀ c ∈ (copyParameters r function G ds).1, F.declaration? c = none)
      ∧ G.declarations.size ≤ (copyParameters r function G ds).2.declarations.size := by
  intro ds
  induction ds with
  | nil => intro G h _; exact ⟨h, fun c hc => absurd hc List.not_mem_nil, Nat.le_refl _⟩
  | cons d ds ih =>
    intro G h hf
    obtain ⟨h₁, hc₁, hs₁⟩ := grows_copyParameter (r := r) (d := d) h hf
    obtain ⟨h₂, hc₂, hs₂⟩ := ih h₁ (Nat.lt_of_lt_of_le hf hs₁)
    refine ⟨h₂, fun c hc => ?_, Nat.le_trans hs₁ hs₂⟩
    rcases List.mem_append.mp hc with hc | hc
    · exact hc₁ c hc
    · exact hc₂ c hc

/-- each parameter that is there is copied -/
theorem length_copyParameters (r : Renaming) {function : DeclarationId} :
    ∀ (ds : List DeclarationId) {G : Forest}, Grows D F G → function.index < G.declarations.size →
    (∀ d ∈ ds, (F.declaration? d).isSome) →
    (copyParameters r function G ds).1.length = ds.length := by
  intro ds
  induction ds with
  | nil => exact fun _ _ _ => rfl
  | cons d ds ih =>
    intro G h hf hds
    obtain ⟨h₁, _, hs₁⟩ := grows_copyParameter (r := r) (d := d) h hf
    have hlater := ih h₁ (Nat.lt_of_lt_of_le hf hs₁) fun a ha => hds a (List.mem_cons_of_mem _ ha)
    obtain ⟨x, hx⟩ := Option.isSome_iff_exists.mp (h.isSome (hds d List.mem_cons_self))
    have hone : (copyParameter r function G d).1.length = 1 := by
      unfold copyParameter
      rw [hx]
      rfl
    show (_ ++ _ : List DeclarationId).length = _
    rw [List.length_append, hone, hlater, List.length_cons, Nat.add_comm]

/-- and so is each type parameter -/
theorem length_copyTypeParameters {function : DeclarationId} :
    ∀ (ds : List DeclarationId) {G : Forest}, Grows D F G → function.index < G.declarations.size →
    (∀ d ∈ ds, (F.declaration? d).isSome) →
    (copyTypeParameters function G ds).1.2.length = ds.length := by
  intro ds
  induction ds with
  | nil => exact fun _ _ _ => rfl
  | cons d ds ih =>
    intro G h hf hds
    obtain ⟨h₁, _, hs₁⟩ := grows_copyTypeParameter (d := d) h hf
    have hlater := ih h₁ (Nat.lt_of_lt_of_le hf hs₁) fun a ha => hds a (List.mem_cons_of_mem _ ha)
    obtain ⟨x, hx⟩ := Option.isSome_iff_exists.mp (h.isSome (hds d List.mem_cons_self))
    have hone : (copyTypeParameter G function d).1.2.length = 1 := by
      unfold copyTypeParameter
      rw [hx]
      rfl
    show (_ ++ _ : List DeclarationId).length = _
    rw [List.length_append, hone, hlater, List.length_cons, Nat.add_comm]

/-- one is copied just if there is one -/
theorem isSome_head?_of_length {l : List DeclarationId} {o : Option DeclarationId}
    (h : l.length = o.toList.length) : l.head?.isSome = o.isSome := by
  cases o <;> cases l <;> simp_all

/-- the parameters are copied first, and then the function lists them -/
theorem exists_copySignature (owner : Declaration) (f : FunctionInfo) {function : DeclarationId}
    (h : Grows D F G) (hf : function.index < G.declarations.size) :
    ∃ H g, G.copySignature owner f function
      = H.updateDeclaration function (Declaration.mapFunction g) ∧ Grows D F H
      ∧ ∀ k, ((g k).modality = k.modality ∧ (g k).overridden = k.overridden ∧ (g k).property = k.property)
        ∧ ((∀ a ∈ f.valueParameters, (F.declaration? a).isSome) →
          (g k).valueParameters.length = f.valueParameters.length)
        ∧ ((∀ a ∈ f.typeParameters ++ f.extensionReceiver.toList, (F.declaration? a).isSome) →
          (g k).typeParameters.length = f.typeParameters.length
            ∧ (g k).extensionReceiver.isSome = f.extensionReceiver.isSome) := by
  unfold copySignature
  obtain ⟨h₁, hc, hs₁⟩ := grows_copyTypeParameters f.typeParameters h hf
  have htypes := length_copyTypeParameters f.typeParameters h hf
  generalize copyTypeParameters function G f.typeParameters = types at h₁ hc hs₁ htypes
  obtain ⟨h₂, hs₂⟩ := grows_renameBounds (r := types.1.1) h₁ hc
  have hf₂ := hs₂ ▸ Nat.lt_of_lt_of_le hf hs₁
  obtain ⟨h₃, _, hs₃⟩ := grows_copyParameters types.1.1 f.extensionReceiver.toList h₂ hf₂
  have hf₃ := Nat.lt_of_lt_of_le hf₂ hs₃
  obtain ⟨h₄, _, hs₄⟩ := grows_copyParameters types.1.1 f.valueParameters h₃ hf₃
  have hf₄ := Nat.lt_of_lt_of_le hf₃ hs₄
  have hextension := length_copyParameters types.1.1 f.extensionReceiver.toList h₂ hf₂
  refine ⟨_, _, rfl, Grows.declare h₄ rfl (fun p hp => ?_) (fun _ c hc => ?_), fun k =>
    ⟨⟨rfl, rfl, rfl⟩, length_copyParameters types.1.1 f.valueParameters h₃ hf₃, fun hs =>
      ⟨htypes fun a ha => hs a (List.mem_append_left _ ha), ?_⟩⟩⟩
  · obtain rfl := Option.some.inj hp
    exact declaration?_isSome.mpr hf₄
  · cases hc
  · exact isSome_head?_of_length (hextension fun a ha => hs a (List.mem_append_right _ ha))

theorem grows_copySignature {owner : Declaration} {f : FunctionInfo} {function : DeclarationId}
    (h : Grows D F G) (hnew : F.declaration? function = none)
    (hf : function.index < G.declarations.size) :
    Grows D F (G.copySignature owner f function) := by
  obtain ⟨H, g, e, hH, _⟩ := exists_copySignature owner f h hf
  rw [e]
  refine hH.build hnew ?_ ?_ ?_ ?_
  · intro x
    unfold Declaration.mapFunction
    split <;> rfl
  · rintro ⟨_, _, _, _, _, content⟩
    cases content <;> rfl
  · rintro ⟨_, _, _, _, _, content⟩
    cases content <;> rfl
  · intro x p hp
    unfold Declaration.mapFunction at hp
    split at hp <;> exact .inl hp

/-- a function stays one when it is given parameters -/
theorem isSome_function?_copySignature (owner : Declaration) (f : FunctionInfo)
    {function : DeclarationId} (h : (G.function? function).isSome) :
    ((G.copySignature owner f function).function? function).isSome := by
  obtain ⟨info, hinfo⟩ := Option.isSome_iff_exists.mp h
  obtain ⟨x, hx, _⟩ := Option.bind_eq_some_iff.mp hinfo
  obtain ⟨H, g, e, hH, _⟩ := exists_copySignature (D := fun _ => True) owner f (.refl G)
    (declaration?_isSome.mp (Option.isSome_iff_exists.mpr ⟨x, hx⟩))
  obtain ⟨info', hinfo'⟩ := Option.isSome_iff_exists.mp (hH.isSome_function? h)
  obtain ⟨y, hy, hyf⟩ := Option.bind_eq_some_iff.mp hinfo'
  rw [e, function?, declaration?_updateDeclaration, if_pos rfl, hy, Option.map_some, Option.bind_some,
    Declaration.function?_mapFunction, hyf]
  rfl

/-- what is copied is a function -/
theorem isSome_function?_copyMember {d m : DeclarationId} {owner : Declaration} {f : FunctionInfo}
    (hd : F.declaration? d = some owner) (hm : F.function? m = some f) :
    ((F.copyMember d m).2.function? (F.copyMember d m).1).isSome := by
  obtain ⟨source, hsource, _⟩ := Option.bind_eq_some_iff.mp hm
  simp only [copyMember, hd, hsource, hm]
  apply isSome_function?_copySignature
  rw [function?_attach, function?, declaration?_addDeclaration, if_pos rfl]
  rfl

/-- **A class gets a copied member**, and nothing else changes. -/
theorem grows_copyMember {d m : DeclarationId} (hD : D d) : Grows D F (F.copyMember d m).2 := by
  unfold copyMember
  split
  · rename_i owner source f ho hm hf
    have hd : (F.declaration? d).isSome := Option.isSome_iff_exists.mpr ⟨owner, ho⟩
    refine grows_copySignature ?_ (F.declaration?_size) ?_
    · refine Grows.attach (Grows.declare (.refl F) rfl ?_ ?_) (F.declaration?_size)
        ⟨_, (declaration?_addDeclaration _ _ _).trans (if_pos rfl), rfl⟩ hD hd
      · intro p hp
        cases hp
      · intro _ c hc
        cases hc
    · rw [size_attach, size_addDeclaration]
      exact Nat.lt_succ_self _
  · exact .refl F

end

end Forest

end LinkRepair
