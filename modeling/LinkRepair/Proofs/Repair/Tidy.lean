import LinkRepair.Proofs.Forest.Trees
import LinkRepair.Proofs.Repair.Implementations
import LinkRepair.Proofs.Repair.Linked
import LinkRepair.Unlinked

/-!
# Tidy forests

The search for unlinked symbols looks at what the nodes mention themselves.  In a tidy forest that is
enough: if no node below a file of the user mentions a missing symbol, then nothing is tainted but the
missing symbols.

* `Intrinsics.Installed`      the intrinsic file lists what it was installed with, as it does at first;
* `Forest.EntriesFit`         kind-correct, and so are the enum entries;
* `Forest.Tidy`               a forest that leaves nothing to do but to link its symbols;
* `Tidy.noneMissing_mentions` no node mentions a missing symbol, if the search finds none;
* `Tidy.not_tainted`          a symbol that is not missing is not tainted then.
-/

namespace LinkRepair

/-! ## the intrinsic file -/

namespace Intrinsics

/-- an intrinsic class as it is installed -/
def installedClass (I : Intrinsics) (s : SymbolId) (name : String) (modality : Modality) :
    Declaration :=
  ⟨s, name, .defined, some (.file I.file), .undefined,
    .ofClass { ClassInfo.blank with modality := modality }⟩

/-- the function that raises a linkage error as it is installed, with its parameter -/
def installedFunction (I : Intrinsics) (message : DeclarationId) : Declaration :=
  ⟨I.linkageError, linkageErrorName, .defined, some (.file I.file), .undefined,
    .ofFunction { FunctionInfo.returning I.nothingType with
      body := none
      valueParameters := [message] }⟩

/-- the declarations of the intrinsic file as they are installed -/
def installed (I : Intrinsics) (message : DeclarationId) : List Declaration :=
  [I.installedClass I.any "Any" .overridable, I.installedClass I.nothing "Nothing" .final,
    I.installedClass I.string "String" .final, I.installedClass I.unit "Unit" .final,
    I.installedFunction message]

theorem cases_of_mem_installed {I : Intrinsics} {message : DeclarationId} {x : Declaration}
    (h : x ∈ I.installed message) :
    (∃ s name modality, x = I.installedClass s name modality) ∨ x = I.installedFunction message := by
  simp only [installed, List.mem_cons, List.not_mem_nil, or_false] at h
  rcases h with rfl | rfl | rfl | rfl | rfl
  · exact .inl ⟨_, _, _, rfl⟩
  · exact .inl ⟨_, _, _, rfl⟩
  · exact .inl ⟨_, _, _, rfl⟩
  · exact .inl ⟨_, _, _, rfl⟩
  · exact .inr rfl

/-- a parameter that takes a string, as the function that raises a linkage error has it -/
def IsMessage (I : Intrinsics) (y : Declaration) : Prop :=
  y.origin = .defined ∧ y.content = .ofParameter (.ofType I.stringType)

def Installed (I : Intrinsics) (F : Forest) : Prop :=
  ∃ file message y, F.file? I.file = some file
    ∧ file.declarations.map F.declaration? = (I.installed message).map some
    ∧ F.declaration? message = some y ∧ I.IsMessage y

/-- what is installed in any forest is so -/
theorem installed_installIntrinsics (F : Forest) :
    F.installIntrinsics.1.Installed F.installIntrinsics.2 := by
  refine ⟨⟨"<builtins>", .ofText "", intrinsicPackage,
      (List.range 5).map fun i => ⟨F.declarations.size + i⟩⟩, ⟨F.declarations.size + 5⟩,
    ⟨⟨F.symbols.size + 5⟩, "message", .defined, some (.declaration ⟨F.declarations.size + 4⟩),
      .undefined, .ofParameter (.ofType (.simple ⟨F.symbols.size + 2⟩))⟩, ?_⟩
  simp [IsMessage, installed, installedClass, installedFunction, Forest.installIntrinsics,
    Forest.addIntrinsicClass, Forest.addIntrinsic, Forest.newFile, Forest.addFile, Forest.addSymbol,
    Forest.addDeclaration, Forest.updateSymbol, Forest.attach, Forest.newValueParameter,
    Forest.declareLocal, Forest.updateDeclaration, Forest.updateFile, Forest.file?,
    Forest.declaration?, Declaration.mapFunction, FunctionInfo.returning, nothingType, stringType,
    Array.getElem_modify, Array.getElem_push, List.range_succ, Nat.add_assoc]

end Intrinsics

namespace Forest

variable {F : Forest} {I : Intrinsics} {n : Node} {d : DeclarationId}

/-- what is below the intrinsic file was installed there -/
theorem exists_of_reaches_intrinsic {file : SourceFile} {message : DeclarationId} {y : Declaration}
    (hf : F.file? I.file = some file)
    (hfile : file.declarations.map F.declaration? = (I.installed message).map some)
    (hmessage : F.declaration? message = some y) (hy : I.IsMessage y)
    (hn : F.Reaches [.file I.file] n) :
    ∃ d x, n = .declaration d ∧ F.declaration? d = some x
      ∧ (x ∈ I.installed message ∨ I.IsMessage x) := by
  obtain ⟨d, hd, hreach⟩ := hn
  have htop : d ∈ file.declarations := by
    obtain ⟨root, hroot, hd⟩ := List.mem_flatMap.mp hd
    obtain rfl := List.mem_singleton.mp hroot
    simpa [rootDeclarations, hf] using hd
  induction hreach with
  | refl =>
    have hmem := List.mem_map_of_mem (f := F.declaration?) htop
    rw [hfile] at hmem
    obtain ⟨x, hx, e⟩ := List.mem_map.mp hmem
    exact ⟨d, x, rfl, e.symm, .inl hx⟩
  | tail _ hchild ih =>
    obtain ⟨a, x, rfl, hx, hinstalled⟩ := ih
    unfold Child at hchild
    rw [children_declaration hx] at hchild
    rcases hinstalled with hx | ⟨_, hc⟩
    · obtain ⟨s, name, modality, rfl⟩ | rfl := Intrinsics.cases_of_mem_installed hx
      · exact absurd hchild List.not_mem_nil
      · exact ⟨message, y, List.mem_singleton.mp hchild, hmessage, .inr hy⟩
    · rw [hc] at hchild
      exact absurd hchild List.not_mem_nil

/-- it mentions the types of the function that raises a linkage error, and is no enum entry -/
theorem mentioned_installed {message : DeclarationId} {x : Declaration}
    (hx : x ∈ I.installed message ∨ I.IsMessage x) :
    x.mentioned ⊆ [I.nothing, I.string] ∧ ∀ e, x.content ≠ .ofEnumEntry e := by
  rcases hx with hx | ⟨ho, hc⟩
  · obtain ⟨s, name, modality, rfl⟩ | rfl := Intrinsics.cases_of_mem_installed hx
    · exact ⟨List.nil_subset _, fun _ he => by cases he⟩
    · refine ⟨fun s hs => ?_, fun _ he => by cases he⟩
      have hs' : s ∈ I.nothingType.mentioned ++ [] := hs
      rw [List.append_nil, Intrinsics.nothingType, TypeRef.mentioned_simple] at hs'
      exact List.mem_cons.mpr (.inl (List.mem_singleton.mp hs'))
  · refine ⟨fun s hs => ?_, fun _ he => by rw [hc] at he; cases he⟩
    have hs' : s ∈ I.stringType.mentioned ++ [] := by
      rwa [Declaration.mentioned, ho, hc] at hs
    rw [List.append_nil, Intrinsics.stringType, TypeRef.mentioned_simple] at hs'
    exact List.mem_cons_of_mem _ hs'

/-- so nothing below the intrinsic file mentions more -/
theorem mentions_of_reaches_intrinsic (h : I.Installed F) (hn : F.Reaches [.file I.file] n) :
    F.mentions n ⊆ [I.nothing, I.string] ∧ ∃ d x, n = .declaration d ∧ F.declaration? d = some x
      ∧ ∀ e, x.content ≠ .ofEnumEntry e := by
  obtain ⟨file, message, y, hf, hfile, hmessage, hy⟩ := h
  obtain ⟨d, x, rfl, hx, hinstalled⟩ := exists_of_reaches_intrinsic hf hfile hmessage hy hn
  have hmentions : F.mentions (.declaration d) = x.mentioned := by simp [mentions, hx]
  obtain ⟨hmentioned, hentry⟩ := mentioned_installed hinstalled
  exact ⟨hmentions ▸ hmentioned, d, x, rfl, hx, hentry⟩

/-- what is installed is not missing -/
theorem isMissing_of_mem_installed (hF : F.Planted) {file : SourceFile} {message : DeclarationId}
    (hf : F.file? I.file = some file)
    (hfile : file.declarations.map F.declaration? = (I.installed message).map some)
    {x : Declaration} (hx : x ∈ I.installed message) : F.isMissing x.symbol = false := by
  have hmem : some x ∈ file.declarations.map F.declaration? := by
    rw [hfile]
    exact List.mem_map_of_mem hx
  obtain ⟨d, hd, e⟩ := List.mem_map.mp hmem
  have hfileId : I.file ∈ F.fileIds := mem_fileIds.mpr (Option.isSome_iff_exists.mpr ⟨file, hf⟩)
  have hreached : F.Reached (.declaration d) :=
    ⟨d, List.mem_flatMap.mpr ⟨.file I.file, List.mem_map_of_mem hfileId, by
      simpa [rootDeclarations, hf] using hd⟩, .refl⟩
  have hown := hF.owner d hreached
  rw [symbolOwner?, e, Option.bind_some] at hown
  have hdefined : x.origin = .defined := by
    obtain ⟨s, name, modality, rfl⟩ | rfl := Intrinsics.cases_of_mem_installed hx <;> rfl
  simp [isMissing, definition?, hown, e, hdefined]

/-! ## tidy forests -/

/-- kind-correct, and besides the class of an enum entry is a class, and so is what lists the entry -/
structure EntriesFit (F : Forest) (roots : List Root) : Prop extends F.KindCorrect roots where
  entries : ∀ d x e, F.Reaches roots (.declaration d) → F.declaration? d = some x →
    x.content = .ofEnumEntry e → (∀ c, e.class? = some c → (F.class? c).isSome)
      ∧ ∀ a, x.parentDeclaration? = some a → (F.class? a).isSome

/-- a forest that leaves nothing to do but to link its symbols -/
structure Tidy (F : Forest) (I : Intrinsics) : Prop where
  wellFormed : F.defects = []
  kinds : F.EntriesFit (F.userRoots I)
  installed : I.Installed F
  /-- neither a part of a signature nor the type of a value is a marker -/
  unmarked : ∀ d, ∀ t ∈ F.signatureTypes d ++ F.valueTypes d, t.isMarker = false
  /-- the owner of a symbol is below one of the files -/
  owned : ∀ s d, F.owner? s = some d → F.Reached (.declaration d)
  /-- a class that needs another one around it has one -/
  enclosed : ∀ d c, F.class? d = some c → c.needsEnclosing = true → (F.enclosingClass d).isSome
  /-- nothing private is overridden -/
  overridable : ∀ d, ∀ s ∈ F.overriddenBy d,
    (F.definition? s).bind Declaration.visibility? ≠ some .privateAccess
  /-- what an instantiable class inherits is implemented -/
  implemented : ∀ d b m x, F.isConcrete d = true → F.Inherits d b → b ≠ d → m ∈ F.memberFunctions b →
    F.isAbstract m = true → F.declaration? m = some x → x.origin = .defined → F.Implemented d m x

/-- below a file of the user, or below the intrinsic file -/
theorem Reached.cases (h : F.Reached n) :
    F.Reaches (F.userRoots I) n ∨ F.Reaches [.file I.file] n := by
  obtain ⟨d, hd, hreach⟩ := h
  obtain ⟨root, hroot, hd⟩ := List.mem_flatMap.mp hd
  obtain ⟨f, hf, rfl⟩ := List.mem_map.mp hroot
  by_cases e : f = I.file
  · exact .inr ⟨d, List.mem_flatMap.mpr ⟨_, List.mem_singleton.mpr (e ▸ rfl), hd⟩, hreach⟩
  · refine .inl ⟨d, List.mem_flatMap.mpr ⟨.file f, List.mem_map_of_mem ?_, hd⟩, hreach⟩
    exact List.mem_filter.mpr ⟨hf, bne_iff_ne.mpr e⟩

/-- what a place is in is below a file, too -/
theorem Placed.reached_container {p : Placement} {a : DeclarationId} (h : F.Placed p)
    (ha : p.container = .declaration a) : F.Reached (.declaration a) := by
  induction h with
  | top h =>
    obtain ⟨f, _, d, _, rfl⟩ := mem_topPlacements.mp h
    cases ha
  | inside hq h ih =>
    obtain ⟨_, ⟨b, hb, hc⟩ | ⟨e, _, hc⟩⟩ := mem_placementsBelow.mp h
    · obtain rfl := Parent.declaration.inj (hc.symm.trans ha)
      exact hb ▸ hq.reached
    · exact ih (hc.symm.trans ha)

/-- the parent of a declaration is below a file, too -/
theorem Rooted.reached_parent (hF : F.Rooted) {a : DeclarationId} (hd : F.Reached (.declaration d))
    (ha : F.parentDeclaration? d = some a) : F.Reached (.declaration a) := by
  obtain ⟨c, hc⟩ := placed_of_reached hd
  refine hc.reached_container ?_
  have hlink := hF.link _ d hc rfl
  obtain ⟨x, hx, hparent⟩ := Option.bind_eq_some_iff.mp ha
  rw [parentLink?, hx, Option.bind_some] at hlink
  unfold Declaration.parentDeclaration? at hparent
  rw [hlink] at hparent
  dsimp only at hparent ⊢
  split at hparent
  · rename_i e
    rw [Option.some.inj e, Option.some.inj hparent]
  · cases hparent

/-- so is the class around a class -/
theorem Rooted.reached_enclosingClass (hF : F.Rooted) {a : DeclarationId}
    (hd : F.Reached (.declaration d)) (ha : F.enclosingClass d = some a) :
    F.Reached (.declaration a) ∧ ∃ y c, F.declaration? a = some y ∧ y.content = .ofClass c := by
  obtain ⟨b, hb, h⟩ := Option.bind_eq_some_iff.mp ha
  have hreached := hF.reached_parent hd hb
  obtain ⟨y, hy, h⟩ := Option.bind_eq_some_iff.mp h
  split at h
  · rename_i c hc
    obtain rfl := Option.some.inj h
    exact ⟨hreached, y, c, hy, hc⟩
  · obtain ⟨ha, hclass⟩ := Option.filter_eq_some_iff.mp h
    cases hz : F.declaration? a with
    | none => simp [hz] at hclass
    | some z =>
      rw [hz, Option.any_some] at hclass
      obtain ⟨c, hc⟩ := Option.isSome_iff_exists.mp hclass
      exact ⟨hF.reached_parent hreached ha, z, c, rfl, class?_eq_some.mp hc⟩
  · cases h

namespace Tidy

variable (h : F.Tidy I) (hnone : F.unlinkedSymbols (F.userRoots I) = [])

include h hnone

/-- **No node mentions a missing symbol**, if the search finds none. -/
theorem noneMissing_mentions (hn : F.Reached n) : F.NoneMissing (F.mentions n) := by
  intro s hs
  rcases hn.cases (I := I) with huser | hintrinsic
  · by_contra hmissing
    have hstores : F.Stores n := by
      unfold mentions at hs
      unfold Stores
      cases n with
      | declaration d => cases hx : F.declaration? d <;> simp [hx] at hs ⊢
      | expression e => cases hx : F.expression? e <;> simp [hx] at hs ⊢
    have hmem : s ∈ F.unlinkedSymbols (F.userRoots I) := mem_unlinkedSymbols.mpr
      ⟨⟨n, (mem_nodesUnder hstores).mpr huser, hs⟩, by simpa using hmissing⟩
    rw [hnone] at hmem
    exact absurd hmem List.not_mem_nil
  · have hsub := (mentions_of_reaches_intrinsic h.installed hintrinsic).1 hs
    obtain ⟨file, message, y, hf, hfile, _, _⟩ := h.installed
    have hplanted := planted_of_defects_nil h.wellFormed
    rcases List.mem_cons.mp hsub with rfl | hsub
    · exact isMissing_of_mem_installed hplanted hf hfile (x := I.installedClass I.nothing "Nothing" .final)
        (by simp [Intrinsics.installed])
    · obtain rfl := List.mem_singleton.mp hsub
      exact isMissing_of_mem_installed hplanted hf hfile (x := I.installedClass I.string "String" .final)
        (by simp [Intrinsics.installed])

/-- no declaration but an initializer stands in for a missing one -/
theorem not_isMissing_symbol (hd : F.Reached (.declaration d)) {x : Declaration}
    (hx : F.declaration? d = some x) (hinit : x.isInitializer = false) :
    x.origin ≠ .missing ∧ F.isMissing x.symbol = false := by
  have howner : F.owner? x.symbol = some d := by
    have := (planted_of_defects_nil h.wellFormed).owner d hd
    rwa [symbolOwner?, hx, Option.bind_some] at this
  have horigin : x.origin ≠ .missing := fun hmissing => by
    have hmem : x.symbol ∈ F.mentions (.declaration d) := by
      simp [mentions, hx, Declaration.mentioned, hmissing, hinit]
    have := h.noneMissing_mentions hnone hd x.symbol hmem
    simp [isMissing, definition?, howner, hx, hmissing] at this
  refine ⟨horigin, ?_⟩
  simpa [isMissing, definition?, howner, hx] using horigin

/-- the types of a declaration mention nothing that is missing -/
theorem noneMissing_content (hd : F.Reached (.declaration d)) {x : Declaration}
    (hx : F.declaration? d = some x) : F.NoneMissing x.content.mentioned := by
  refine (h.noneMissing_mentions hnone hd).subset fun s hs => ?_
  simp only [mentions, hx]
  exact List.mem_append_right _ hs

/-- what is not missing is not broken, and rests on nothing that is missing -/
theorem standing_of_not_isMissing {s : SymbolId} (hs : F.isMissing s = false) :
    ∃ needs isClass, F.standing s = .rests needs isClass ∧ F.NoneMissing needs := by
  unfold isMissing at hs
  cases hdef : F.definition? s with
  | none => simp [hdef] at hs
  | some x =>
    obtain ⟨d, ho, hx⟩ := Option.bind_eq_some_iff.mp hdef
    have horigin : x.origin ≠ .missing := by simpa [hdef] using hs
    have hd := h.owned s d ho
    have hcontent := h.noneMissing_content hnone hd hx
    rw [standing_of_owner? ho hx]
    unfold standingOf
    rw [if_neg horigin]
    cases hc : x.content with
    | ofClass c =>
      rw [hc] at hcontent
      have hclass : F.class? d = some c :=
        Option.bind_eq_some_iff.mpr ⟨x, hx, class?_eq_some.mpr hc⟩
      -- the class around it is not missing, if there is one
      have hencloses : ∀ a, F.enclosingClass d = some a → ∃ y, F.declaration? a = some y
          ∧ y.origin ≠ .missing ∧ F.isMissing y.symbol = false := fun a ha => by
        obtain ⟨hra, y, c', hy, hyc⟩ :=
          (rooted_of_defects_nil h.wellFormed).reached_enclosingClass hd ha
        exact ⟨y, hy, h.not_isMissing_symbol hnone hra hy (by simp [Declaration.isInitializer, hyc])⟩
      have hlacks : (c.needsEnclosing && F.lacksEnclosing d) = false := by
        cases hneeds : c.needsEnclosing with
        | false => rfl
        | true =>
          obtain ⟨a, ha⟩ := Option.isSome_iff_exists.mp (h.enclosed d c hclass hneeds)
          obtain ⟨y, hy, hyo, _⟩ := hencloses a ha
          simpa [lacksEnclosing, ha, hy] using hyo
      dsimp only
      rw [hlacks]
      refine ⟨_, _, rfl, noneMissing_append.mpr ⟨hcontent, fun t ht => ?_⟩⟩
      obtain ⟨y, hy, rfl⟩ := Option.map_eq_some_iff.mp (Option.mem_toList.mp ht)
      obtain ⟨a, ha, hy⟩ := Option.bind_eq_some_iff.mp hy
      obtain ⟨y', hy', _, hsymbol⟩ := hencloses a ha
      obtain rfl := Option.some.inj (hy.symm.trans hy')
      exact hsymbol
    | ofTypeParameter p =>
      rw [hc] at hcontent
      exact ⟨_, _, rfl, hcontent⟩
    | _ => exact ⟨_, _, rfl, fun t ht => absurd ht List.not_mem_nil⟩

/-- **A symbol that is not missing is not tainted.** -/
theorem not_tainted {s : SymbolId} (hs : F.isMissing s = false) : ¬ F.Tainted .empty s := by
  rintro ⟨n, hn⟩
  induction n generalizing s with
  | zero =>
    obtain ⟨needs, isClass, hst, _⟩ := h.standing_of_not_isMissing hnone hs
    rcases hn with hb | ⟨c, hc⟩
    · obtain ⟨c, hc⟩ := broken_iff.mp hb
      rw [hst] at hc
      cases hc
    · rw [Memo.find?_empty] at hc
      cases hc
  | succ n ih =>
    obtain ⟨needs, isClass, hst, hneeds⟩ := h.standing_of_not_isMissing hnone hs
    obtain ⟨t, ht, hn⟩ := hn
    rw [hst] at ht
    exact ih (hneeds t ht) hn

end Tidy

/-! ## a check of the stores -/

section
variable {F : Forest} {I : Intrinsics}

end

end Forest

end LinkRepair
