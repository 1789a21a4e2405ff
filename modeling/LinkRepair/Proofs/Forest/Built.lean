import Mathlib.Data.List.Count
import LinkRepair.Proofs.Forest.Building

/-!
# Forests that were built are well-formed

Every call keeps to the record: it makes new declarations, lists them where they were made for, or
places nodes that are listed nowhere.

* `Forest.Loose`                        a declaration that is neither listed nor placed;
* `Recorded.declare`                    a new declaration is loose at first;
* `Recorded.update`                     an edit that lists loose declarations;
* `Recorded.attach`                     a loose declaration becomes a member;
* `Forest.exists_newProperty`           the steps in which a property is made;
* `Recorded.run`                        a call keeps to the record;
* `Recorded.installIntrinsics`          so does the intrinsic file;
* `Build.recorded_after`                and so does every sequence of calls;
* `Build.defects_after_eq_nil`          what places each node once, and where it belongs, builds a
  well-formed forest.
-/

namespace LinkRepair

namespace Forest

/-- a declaration that is neither listed nor placed, with its parent link -/
structure Loose (F : Forest) (P : List (Node × Node)) (d : DeclarationId) (q : Parent) : Prop where
  link : F.parentLink? d = some q
  unlisted : d ∉ F.listings
  unplaced : ∀ a, (.declaration d, a) ∉ P

section
variable {F G : Forest} {D : List (DeclarationId × Parent)} {P : List (Node × Node)}
  {d o : DeclarationId} {q : Parent}

/-! ## forests with the same links -/

/-- links and lists, except that more declarations may be there -/
structure SameLinks (F G : Forest) : Prop where
  link : ∀ d, (F.declaration? d).isSome → G.parentLink? d = F.parentLink? d
  roots : ∀ f, G.rootDeclarations (.file f) = F.rootDeclarations (.file f)
  listed : ∀ a, G.listed a = F.listed a

theorem SameLinks.mem_listings (h : F.SameLinks G) : d ∈ G.listings ↔ d ∈ F.listings := by
  simp only [Forest.mem_listings, h.roots, h.listed]

theorem SameLinks.loose (h : F.SameLinks G) (hd : F.Loose P d q) : G.Loose P d q where
  link := (h.link d (isSome_of_parentLink? hd.link)).trans hd.link
  unlisted := fun hl => hd.unlisted (h.mem_listings.mp hl)
  unplaced := hd.unplaced

namespace Recorded

/-- a longer record -/
theorem more (h : F.Recorded D P) (E : List (DeclarationId × Parent)) {Q : List (Node × Node)}
    (hQ : ∀ x ∈ Q, F.Stores x.1 ∧ x.1 ∉ F.listings.map Node.declaration) :
    F.Recorded (D ++ E) (P ++ Q) where
  declared := fun d hd => by
    obtain ⟨q, hq, hlink⟩ := h.declared d hd
    exact ⟨q, List.mem_append_left _ hq, hlink⟩
  owner := h.owner
  top := h.top
  top_nodup := h.top_nodup
  listed := h.listed
  listed_nodup := h.listed_nodup
  held := fun a n => by
    rw [List.count_append]
    exact Nat.le_add_right_of_le (h.held a n)
  known := fun n a hn => by
    rcases List.mem_append.mp hn with hn | hn
    · exact h.known n a hn
    · exact (hQ _ hn).1
  apart := fun d a hd hl => by
    rcases List.mem_append.mp hd with hd | hd
    · exact h.apart d a hd hl
    · exact (hQ _ hd).2 (List.mem_map_of_mem hl)

theorem isSome_of_mem_listings (h : F.Recorded D P) (hd : d ∈ F.listings) :
    (F.declaration? d).isSome := by
  rcases Forest.mem_listings.mp hd with ⟨f, hd⟩ | ⟨a, hd⟩
  · exact isSome_of_parentLink? (h.top f d hd)
  · exact isSome_of_parentLink? (h.listed a d hd)

/-- the declaration that comes next is in no list -/
theorem next_unlisted (h : F.Recorded D P) : (⟨F.declarations.size⟩ : DeclarationId) ∉ F.listings :=
  fun hl => by
    have := h.isSome_of_mem_listings hl
    rw [F.declaration?_size] at this
    cases this

theorem next_unplaced (h : F.Recorded D P) (a : Node) : (.declaration ⟨F.declarations.size⟩, a) ∉ P :=
  fun hp => by
    have : (F.declaration? ⟨F.declarations.size⟩).isSome := h.known _ a hp
    rw [F.declaration?_size] at this
    cases this

/-! ## new declarations -/

section
variable {kind : SymbolKind} {signature : Option Signature} {x : Declaration}

theorem declaration?_declare (F : Forest) (kind : SymbolKind) (signature : Option Signature)
    (x : Declaration) (d : DeclarationId) :
    ((F.addSymbol kind signature).2.addDeclaration x).2.declaration? d
      = if d = ⟨F.declarations.size⟩ then some x else F.declaration? d :=
  declaration?_addDeclaration _ x d

theorem sameLinks_declare (hl : x.content.listed = []) :
    F.SameLinks ((F.addSymbol kind signature).2.addDeclaration x).2 where
  link := fun d hd => by
    obtain ⟨y, hy⟩ := Option.isSome_iff_exists.mp hd
    rw [parentLink?, parentLink?, declaration?_declare_of_some hy, hy]
  roots := fun _ => rfl
  listed := fun a => by
    unfold Forest.listed
    rw [declaration?_declare]
    split
    · rename_i e
      rw [e, F.declaration?_size, Option.map_some, hl]
      rfl
    · rfl

theorem symbolOwner?_declare (hs : x.symbol = (F.addSymbol kind signature).1)
    (h : F.symbolOwner? d = some d) :
    ((F.addSymbol kind signature).2.addDeclaration x).2.symbolOwner? d = some d := by
  obtain ⟨y, hy, ho⟩ := Option.bind_eq_some_iff.mp h
  obtain ⟨s, hsome, howner⟩ := Option.bind_eq_some_iff.mp ho
  unfold symbolOwner? owner?
  rw [declaration?_declare_of_some hy, Option.bind_some, symbol?_declare_of_some hs hsome,
    Option.bind_some, howner]

/-- **A new declaration** keeps to the record, and is loose at first. -/
theorem declare (h : F.Recorded D P) (kind : SymbolKind) (signature : Option Signature)
    (hs : x.symbol = (F.addSymbol kind signature).1)
    (hq : x.parent = some q) (hD : (⟨F.declarations.size⟩, q) ∈ D) (hl : x.content.listed = [])
    (hh : ∀ n, x.content.held.count n ≤ P.count (n, .declaration ⟨F.declarations.size⟩)) :
    ((F.addSymbol kind signature).2.addDeclaration x).2.Recorded D P
      ∧ ((F.addSymbol kind signature).2.addDeclaration x).2.Loose P ⟨F.declarations.size⟩ q := by
  have hsame : F.SameLinks ((F.addSymbol kind signature).2.addDeclaration x).2 := sameLinks_declare hl
  have hget := declaration?_declare F kind signature x
  have hlink : ((F.addSymbol kind signature).2.addDeclaration x).2.parentLink?
      ⟨F.declarations.size⟩ = some q := by
    rw [parentLink?, hget, if_pos rfl, Option.bind_some, hq]
  refine ⟨⟨fun d hd => ?_, fun d hd => ?_, fun f d hd => ?_, h.top_nodup, fun a d hd => ?_, fun a => ?_,
    fun a n => ?_, fun n a hn => ?_, fun d a hd hlisted => ?_⟩, hlink, fun hl => ?_, h.next_unplaced⟩
  · by_cases e : d = ⟨F.declarations.size⟩
    · exact ⟨q, e ▸ hD, e ▸ hlink⟩
    · rw [hget, if_neg e] at hd
      obtain ⟨q', hq', hlink'⟩ := h.declared d hd
      exact ⟨q', hq', (hsame.link d hd).trans hlink'⟩
  · by_cases e : d = ⟨F.declarations.size⟩
    · rw [symbolOwner?, hget, if_pos e, Option.bind_some, e]
      exact owner?_addDeclaration _ _ (by rw [hs, symbol?_addSymbol, if_pos rfl]; rfl)
    · rw [hget, if_neg e] at hd
      exact symbolOwner?_declare hs (h.owner d hd)
  · have hF := h.top f d hd
    exact (hsame.link d (isSome_of_parentLink? hF)).trans hF
  · rw [hsame.listed] at hd
    have hF := h.listed a d hd
    exact (hsame.link d (isSome_of_parentLink? hF)).trans hF
  · rw [hsame.listed]
    exact h.listed_nodup a
  · cases a with
    | expression e => exact h.held (.expression e) n
    | declaration b =>
      by_cases e : b = ⟨F.declarations.size⟩
      · rw [held_eq ((hget b).trans (if_pos e)), e]
        exact hh n
      · have hsame : Forest.held ((F.addSymbol kind signature).2.addDeclaration x).2 (.declaration b)
            = F.held (.declaration b) := by
          unfold Forest.held
          simp only [hget, if_neg e]
        rw [hsame]
        exact h.held _ n
  · have hF := h.known n a hn
    cases n with
    | expression e => exact hF
    | declaration d =>
      obtain ⟨y, hy⟩ := Option.isSome_iff_exists.mp (show (F.declaration? d).isSome from hF)
      exact Option.isSome_iff_exists.mpr ⟨y, declaration?_declare_of_some hy⟩
  · exact h.apart d a hd (hsame.mem_listings.mp hlisted)
  · exact h.next_unlisted (hsame.mem_listings.mp hl)

end

/-! ## edits -/

section
variable {g : Declaration → Declaration}

/-- an edit that leaves symbols and links as they are, told by what is seen of a declaration -/
theorem links_updateDeclaration
    (hg : ∀ x, F.declaration? o = some x → (g x).symbol = x.symbol ∧ (g x).parent = x.parent)
    (d : DeclarationId) : (F.updateDeclaration o g).parentLink? d = F.parentLink? d
      ∧ (F.updateDeclaration o g).symbolOwner? d = F.symbolOwner? d := by
  unfold parentLink? symbolOwner?
  rw [declaration?_updateDeclaration]
  split
  · rename_i e
    cases hx : F.declaration? d with
    | none => exact ⟨rfl, rfl⟩
    | some x =>
      obtain ⟨hs, hp⟩ := hg x (e ▸ hx)
      simp only [Option.map_some, Option.bind_some, hs, hp]
      exact ⟨trivial, rfl⟩
  · exact ⟨rfl, rfl⟩

/-- the other declarations list what they did -/
theorem listed_updateDeclaration {new : List DeclarationId}
    (hlisted : ∀ x, F.declaration? o = some x →
      (g x).content.listed.Subperm (x.content.listed ++ new)) (a : DeclarationId) :
    (F.updateDeclaration o g).listed a = F.listed a
      ∨ a = o ∧ ((F.updateDeclaration o g).listed a).Subperm (F.listed a ++ new) := by
  by_cases e : o = a
  · cases hx : F.declaration? a with
    | none => exact .inl (by simp [Forest.listed, declaration?_updateDeclaration, hx])
    | some x =>
      refine .inr ⟨e.symm, ?_⟩
      rw [listed_eq hx, listed_eq (x := g x) (by
        rw [declaration?_updateDeclaration, if_pos e, hx, Option.map_some])]
      exact hlisted x (e ▸ hx)
  · exact .inl (by simp [Forest.listed, declaration?_updateDeclaration, e])

/-- **An edit that lists loose declarations**, and leaves symbols and links as they are. -/
theorem update (h : F.Recorded D P) (new : List DeclarationId)
    (hg : ∀ x, F.declaration? o = some x → (g x).symbol = x.symbol ∧ (g x).parent = x.parent)
    (hlisted : ∀ x, F.declaration? o = some x →
      (g x).content.listed.Subperm (x.content.listed ++ new))
    (hheld : ∀ x n, F.declaration? o = some x →
      (g x).content.held.count n ≤ P.count (n, .declaration o))
    (hnodup : new.Nodup) (hnew : ∀ d ∈ new, F.Loose P d (.declaration o)) :
    (F.updateDeclaration o g).Recorded D P := by
  have hget : ∀ {d y}, (F.updateDeclaration o g).declaration? d = some y →
      ∃ x, F.declaration? d = some x ∧ (y = x ∨ o = d ∧ y = g x) := fun {d y} hy => by
    rw [declaration?_updateDeclaration] at hy
    split at hy
    · obtain ⟨x, hx, rfl⟩ := Option.map_eq_some_iff.mp hy
      exact ⟨x, hx, .inr ⟨‹_›, rfl⟩⟩
    · exact ⟨y, hy, .inl rfl⟩
  have hsome : ∀ d, ((F.updateDeclaration o g).declaration? d).isSome → (F.declaration? d).isSome :=
    fun d hd => by
      obtain ⟨y, hy⟩ := Option.isSome_iff_exists.mp hd
      obtain ⟨x, hx, _⟩ := hget hy
      exact Option.isSome_iff_exists.mpr ⟨x, hx⟩
  have hview := links_updateDeclaration hg
  have hlists := listed_updateDeclaration hlisted
  have hlist : ∀ {a d}, d ∈ (F.updateDeclaration o g).listed a →
      d ∈ F.listed a ∨ a = o ∧ d ∈ new := fun {a d} hd => by
    rcases hlists a with e | ⟨e, hsub⟩
    · exact .inl (e ▸ hd)
    · exact (List.mem_append.mp (hsub.subset hd)).imp_right fun hd => ⟨e, hd⟩
  refine ⟨fun d hd => ?_, fun d hd => ?_, fun f d hd => ?_, h.top_nodup, fun a d hd => ?_, fun a => ?_,
    fun a n => ?_, fun n a hn => ?_, fun d a hd hlisted => ?_⟩
  · rw [(hview d).1]
    exact h.declared d (hsome d hd)
  · rw [(hview d).2]
    exact h.owner d (hsome d hd)
  · rw [(hview d).1]
    exact h.top f d hd
  · rw [(hview d).1]
    rcases hlist hd with hd | ⟨e, hd⟩
    · exact h.listed a d hd
    · exact e ▸ (hnew d hd).link
  · rcases hlists a with e | ⟨_, l, hperm, hsub⟩
    · rw [e]
      exact h.listed_nodup a
    · have hall : (F.listed a ++ new).Nodup :=
        List.nodup_append.mpr ⟨h.listed_nodup a, hnodup, fun d hd d' hd' e =>
          (hnew d' hd').unlisted (Forest.mem_listings.mpr (.inr ⟨a, e ▸ hd⟩))⟩
      exact hperm.nodup_iff.mp (hall.sublist hsub)
  · cases a with
    | expression e => exact h.held (.expression e) n
    | declaration b =>
      cases hy : (F.updateDeclaration o g).declaration? b with
      | none => simp [Forest.held, hy]
      | some y =>
        obtain ⟨x, hx, rfl | ⟨rfl, rfl⟩⟩ := hget hy
        · rw [held_eq hy, ← held_eq hx]
          exact h.held _ n
        · rw [held_eq hy]
          exact hheld x n hx
  · have hF := h.known n a hn
    cases n with
    | expression e => exact hF
    | declaration d => exact isSome_declaration?_update hF
  · rcases Forest.mem_listings.mp hlisted with ⟨f, hf⟩ | ⟨b, hb⟩
    · exact h.apart d a hd (Forest.mem_listings.mpr (.inl ⟨f, hf⟩))
    · rcases hlist hb with hb | ⟨_, hb⟩
      · exact h.apart d a hd (Forest.mem_listings.mpr (.inr ⟨b, hb⟩))
      · exact (hnew d hb).unplaced a hd

end

/-- lists of a declaration stay as they are, and so do the nodes that were placed in it -/
theorem keep {g : Declaration → Declaration} (h : F.Recorded D P)
    (hg : ∀ x, F.declaration? o = some x → (g x).symbol = x.symbol ∧ (g x).parent = x.parent)
    (hl : ∀ x, (g x).content.listed = x.content.listed) (hh : ∀ x, (g x).content.held = x.content.held) :
    (F.updateDeclaration o g).Recorded D P :=
  h.update [] hg (fun x _ => by rw [hl, List.append_nil]) (fun x n hx => by
    rw [hh, ← held_eq hx]
    exact h.held _ n) List.nodup_nil fun _ hd => absurd hd List.not_mem_nil

/-! ## members -/

/-- a file lists a loose declaration -/
theorem enlist {f : FileId} (h : F.Recorded D P) (hd : F.Loose P d (.file f)) :
    (F.updateFile f fun file => { file with declarations := file.declarations ++ [d] }).Recorded D P := by
  have hroots : ∀ f', (F.updateFile f fun file => { file with declarations :=
      file.declarations ++ [d] }).rootDeclarations (.file f') = F.rootDeclarations (.file f')
        ++ if f' = f ∧ (F.file? f).isSome then [d] else [] := fun f' => by
    unfold rootDeclarations
    simp only [file?_updateFile]
    by_cases e : f = f'
    · obtain rfl := e
      cases hf : F.file? f <;> simp
    · simp [e, Ne.symm e]
  have hmem : ∀ {f' b}, b ∈ (F.updateFile f fun file => { file with declarations :=
      file.declarations ++ [d] }).rootDeclarations (.file f') →
        b ∈ F.rootDeclarations (.file f') ∨ b = d ∧ f' = f := fun {f' b} hb => by
    rw [hroots] at hb
    refine (List.mem_append.mp hb).imp_right fun hb => ?_
    split at hb
    · rename_i e
      exact ⟨List.mem_singleton.mp hb, e.1⟩
    · exact absurd hb List.not_mem_nil
  refine ⟨h.declared, h.owner, fun f' b hb => ?_, fun f' => ?_, h.listed, h.listed_nodup, h.held, h.known,
    fun b a hb hl => ?_⟩
  · rcases hmem hb with hb | ⟨rfl, rfl⟩
    · exact h.top f' b hb
    · exact hd.link
  · rw [hroots]
    refine List.nodup_append.mpr ⟨h.top_nodup f', by split <;> simp, fun b hb b' hb' e => ?_⟩
    split at hb'
    · rw [List.mem_singleton.mp hb'] at e
      exact hd.unlisted (Forest.mem_listings.mpr (.inl ⟨f', e ▸ hb⟩))
    · exact absurd hb' List.not_mem_nil
  · rcases Forest.mem_listings.mp hl with ⟨f', hf⟩ | ⟨c, hc⟩
    · rcases hmem hf with hf | ⟨rfl, _⟩
      · exact h.apart b a hb (Forest.mem_listings.mpr (.inl ⟨f', hf⟩))
      · exact hd.unplaced a hb
    · exact h.apart b a hb (Forest.mem_listings.mpr (.inr ⟨c, hc⟩))

/-- **A loose declaration becomes a member** of its file, or of its class if that is what it was made
for. -/
theorem attach (h : F.Recorded D P) (hd : F.Loose P d q) : (F.attach q d).Recorded D P := by
  obtain ⟨x, hx, hq⟩ := Option.bind_eq_some_iff.mp hd.link
  -- the link is there already
  have hlinked : (F.updateDeclaration d fun y => { y with parent := some q }).Recorded D P :=
    h.keep (fun y hy => ⟨rfl, by rw [Option.some.inj (hy.symm.trans hx), hq]⟩) (fun _ => rfl) fun _ => rfl
  have hsame : F.SameLinks (F.updateDeclaration d fun y => { y with parent := some q }) := by
    refine ⟨fun b _ => ?_, fun _ => rfl, fun a => ?_⟩
    · unfold parentLink?
      rw [declaration?_updateDeclaration]
      split
      · rename_i e
        rw [← e, hx, Option.map_some, Option.bind_some, Option.bind_some, hq]
      · rfl
    · unfold Forest.listed
      rw [declaration?_updateDeclaration]
      split
      · cases F.declaration? a <;> rfl
      · rfl
  have hloose := hsame.loose hd
  unfold Forest.attach
  cases q with
  | file f => exact hlinked.enlist hloose
  | declaration a =>
    refine hlinked.update [d] (fun y _ => ?_) (fun y _ => ?_) (fun y n hy => ?_)
      (List.nodup_singleton d) fun b hb => List.mem_singleton.mp hb ▸ hloose
    · exact ⟨y.mapClass_symbol _, y.mapClass_parent _⟩
    · obtain ⟨_, _, _, _, _, content⟩ := y
      cases content with
      | ofClass c =>
        simp only [Declaration.addMember, Declaration.mapClass, Content.listed, List.append_assoc]
        exact List.Subperm.refl _
      | _ => exact (List.sublist_append_left _ _).subperm
    · have hheld : (Declaration.addMember d y).content.held = y.content.held := by
        obtain ⟨_, _, _, _, _, content⟩ := y
        cases content <;> rfl
      rw [hheld, ← held_eq hy]
      exact hlinked.held _ n

/-! ## the other stores -/

theorem addSymbol (h : F.Recorded D P) (kind : SymbolKind) (signature : Option Signature) :
    (F.addSymbol kind signature).2.Recorded D P where
  declared := h.declared
  owner := fun d hd => by
    obtain ⟨y, hy, ho⟩ := Option.bind_eq_some_iff.mp (h.owner d hd)
    obtain ⟨s, hsome, howner⟩ := Option.bind_eq_some_iff.mp ho
    unfold symbolOwner? owner?
    rw [declaration?_addSymbol, hy, Option.bind_some, symbol?_addSymbol, if_neg (ne_addSymbol hsome),
      hsome, Option.bind_some, howner]
  top := h.top
  top_nodup := h.top_nodup
  listed := h.listed
  listed_nodup := h.listed_nodup
  held := h.held
  known := h.known
  apart := h.apart

theorem addFile (h : F.Recorded D P) {file : SourceFile} (hempty : file.declarations = []) :
    (F.addFile file).2.Recorded D P := by
  have hroots : ∀ f, (F.addFile file).2.rootDeclarations (.file f) = F.rootDeclarations (.file f) :=
    fun f => by
    obtain ⟨i⟩ := f
    unfold rootDeclarations
    simp only [file?, Forest.addFile, Array.getElem?_push]
    by_cases e : i = F.files.size
    · simp [e, hempty]
    · simp [e]
  refine ⟨h.declared, h.owner, fun f d hd => h.top f d (hroots f ▸ hd), fun f => ?_, h.listed,
    h.listed_nodup, h.held, h.known, fun d a hd hl => h.apart d a hd ?_⟩
  · rw [hroots]
    exact h.top_nodup f
  · rw [Forest.mem_listings] at hl ⊢
    simp only [hroots] at hl
    exact hl

/-- an expression in which nodes are placed -/
theorem addExpression (h : F.Recorded D P) {x : Expression}
    (hh : ∀ n, x.operation.children.count n ≤ P.count (n, .expression ⟨F.expressions.size⟩)) :
    (F.addExpression x).2.Recorded D P where
  declared := h.declared
  owner := h.owner
  top := h.top
  top_nodup := h.top_nodup
  listed := h.listed
  listed_nodup := h.listed_nodup
  held := fun a n => by
    cases a with
    | declaration b => exact h.held (.declaration b) n
    | expression e =>
      by_cases he : e = ⟨F.expressions.size⟩
      · rw [Forest.held, children_expression ((expression?_addExpression F x e).trans (if_pos he)), he]
        exact hh n
      · have hsame : (F.addExpression x).2.children (.expression e) = F.children (.expression e) := by
          have hget : (F.addExpression x).2.expression? e = F.expression? e :=
            (expression?_addExpression F x e).trans (if_neg he)
          simp only [children, hget]
        rw [Forest.held, hsame]
        exact h.held (.expression e) n
  known := fun n a hn => by
    have hF := h.known n a hn
    cases n with
    | declaration d => exact hF
    | expression e =>
      show ((F.addExpression x).2.expression? e).isSome
      rw [expression?_addExpression]
      split
      · rfl
      · exact hF
  apart := h.apart

/-! ## calls -/

section
variable {package name : String} {kind : SymbolKind} {origin : Origin} {content : Content}

/-- a declaration with a signature, which lists and holds nothing yet -/
theorem declareMember (h : F.Recorded D P) (hD : (⟨F.declarations.size⟩, q) ∈ D)
    (hl : content.listed = []) (hh : content.held = []) :
    (F.declare package q kind name origin content).2.Recorded D P := by
  obtain ⟨hmade, hloose⟩ := h.declare kind (some (.plain package (F.qualifiedName q name)))
    (x := ⟨(F.addSymbol kind (some (.plain package (F.qualifiedName q name)))).1, name, origin, some q,
      .undefined, content⟩) rfl rfl hD hl fun n => by rw [hh]; exact Nat.zero_le _
  exact hmade.attach hloose

/-- a declaration without a signature, loose at first -/
theorem declareLocal (h : F.Recorded D P) (kind : SymbolKind) (name : String)
    (hD : (⟨F.declarations.size⟩, .declaration o) ∈ D)
    (hl : content.listed = [])
    (hh : ∀ n, content.held.count n ≤ P.count (n, .declaration ⟨F.declarations.size⟩)) :
    (F.declareLocal o kind name content).2.Recorded D P
      ∧ (F.declareLocal o kind name content).2.Loose P ⟨F.declarations.size⟩ (.declaration o) :=
  h.declare kind none
    (x := ⟨(F.addSymbol kind none).1, name, .defined, some (.declaration o), .undefined, content⟩)
    rfl rfl hD hl hh

/-- a parameter, which its owner lists -/
theorem declareParameter {g : Declaration → Declaration} (h : F.Recorded D P)
    (hD : (⟨F.declarations.size⟩, .declaration o) ∈ D) (hl : content.listed = [])
    (hh : content.held = []) (hg : ∀ x, (g x).symbol = x.symbol ∧ (g x).parent = x.parent)
    (hlisted : ∀ x, (g x).content.listed.Subperm (x.content.listed ++ [⟨F.declarations.size⟩]))
    (hheld : ∀ x, (g x).content.held = x.content.held) :
    ((F.declareLocal o kind name content).2.updateDeclaration o g).Recorded D P := by
  obtain ⟨hmade, hloose⟩ := h.declareLocal kind name hD hl fun n => by
    rw [hh]; exact Nat.zero_le _
  refine hmade.update [⟨F.declarations.size⟩] (fun x _ => hg x) (fun x _ => hlisted x) (fun x n hx => ?_)
    (List.nodup_singleton _) fun d hd => List.mem_singleton.mp hd ▸ hloose
  rw [hheld, ← held_eq hx]
  exact hmade.held _ n

end

end Recorded

theorem declareLocal_fst (F : Forest) (kind : SymbolKind) (name : String) (content : Content) :
    (F.declareLocal o kind name content).1 = ⟨F.declarations.size⟩ := rfl

theorem size_attach_any (F : Forest) (q : Parent) (d : DeclarationId) :
    (F.attach q d).declarations.size = F.declarations.size := by
  cases q <;> simp [Forest.attach, updateDeclaration, updateFile]

theorem size_declare (F : Forest) (kind : SymbolKind) (signature : Option Signature) (x : Declaration) :
    ((F.addSymbol kind signature).2.addDeclaration x).2.declarations.size = F.declarations.size + 1 :=
  size_addDeclaration x

/-- an edit of a function leaves symbols and links as they are -/
theorem mapFunction_symbol_parent (g : FunctionInfo → FunctionInfo) (x : Declaration) :
    (x.mapFunction g).symbol = x.symbol ∧ (x.mapFunction g).parent = x.parent := by
  obtain ⟨_, _, _, _, _, content⟩ := x
  cases content <;> exact ⟨rfl, rfl⟩

/-- **A parameter of a function**, in the place of some others that it lists. -/
theorem Recorded.declareSlot {D : List (DeclarationId × Parent)} {P : List (Node × Node)}
    {kind : SymbolKind} {name : String} {content : Content} {g : FunctionInfo → FunctionInfo}
    (h : F.Recorded D P) (hD : (⟨F.declarations.size⟩, .declaration o) ∈ D) (hl : content.listed = [])
    (hh : content.held = [])
    (hlisted : ∀ f, (Content.ofFunction (g f)).listed.Subperm
      ((Content.ofFunction f).listed ++ [⟨F.declarations.size⟩]))
    (hheld : ∀ f, (Content.ofFunction (g f)).held = (Content.ofFunction f).held) :
    ((F.declareLocal o kind name content).2.updateDeclaration o (Declaration.mapFunction g)).Recorded D P := by
  refine h.declareParameter hD hl hh (mapFunction_symbol_parent g) (fun x => ?_) fun x => ?_
  · obtain ⟨_, _, _, _, _, content⟩ := x
    cases content with
    | ofFunction f => exact hlisted f
    | _ => exact (List.sublist_append_left _ _).subperm
  · obtain ⟨_, _, _, _, _, content⟩ := x
    cases content with
    | ofFunction f => exact hheld f
    | _ => rfl

/-- one more in the place of some others -/
theorem subperm_replace {α : Type} (A B C : List α) (a : α) :
    (A ++ [a] ++ C).Subperm (A ++ B ++ C ++ [a]) := by
  refine ⟨A ++ C ++ [a], ?_, ?_⟩
  · rw [List.append_assoc, List.append_assoc]
    exact List.perm_append_comm.append_left A
  · exact ((List.sublist_append_left A B).append_right C).append_right [a]

/-- two more in the place of some others -/
theorem subperm_pair {α : Type} (A B C : List α) (a b : α) :
    ([a] ++ [b] ++ C).Subperm (A ++ B ++ C ++ [a, b]) := by
  refine ⟨C ++ [a, b], List.perm_append_comm, ?_⟩
  rw [List.append_assoc _ C]
  exact List.sublist_append_right _ _

/-- nodes that are placed in one node, counted -/
theorem count_placed (l : List Node) (a n : Node) :
    (l.map fun m => (m, a)).count (n, a) = l.count n :=
  List.count_map_of_injective l (fun m => (m, a)) (fun _ _ h => congrArg Prod.fst h) n

end

/-- **A property is made in four steps**: the property itself, its field, its getter, and what it
lists. -/
theorem exists_newProperty (F : Forest) (package : String) (q : Parent) (name : String) (type : TypeRef)
    (isMutable : Bool) :
    ∃ G K L : Forest,
      G = (F.declare package q .property name .defined
        (.ofProperty { PropertyInfo.blank with isMutable := isMutable })).2
      ∧ G.declarations.size = F.declarations.size + 1
      ∧ K = (G.newBackingField ⟨F.declarations.size⟩ ⟨F.symbols.size⟩ name type).2
      ∧ K.declarations.size = F.declarations.size + 2
      ∧ L = (K.newGetter package ⟨F.declarations.size⟩ ⟨F.symbols.size⟩ name type).2
      ∧ (F.newProperty package q name type isMutable).2
        = L.updateDeclaration ⟨F.declarations.size⟩ (Declaration.mapProperty fun p =>
          { p with field := some ⟨F.declarations.size + 1⟩, getter := some ⟨F.declarations.size + 2⟩ }) := by
  obtain ⟨G, hG⟩ : ∃ G, G = (F.declare package q .property name .defined
    (.ofProperty { PropertyInfo.blank with isMutable := isMutable })).2 := ⟨_, rfl⟩
  obtain ⟨K, hK⟩ : ∃ K, K = (G.newBackingField ⟨F.declarations.size⟩ ⟨F.symbols.size⟩ name type).2 :=
    ⟨_, rfl⟩
  have hsize : G.declarations.size = F.declarations.size + 1 := by
    rw [hG, Forest.declare, size_attach_any, size_declare]
  have hsize' : K.declarations.size = F.declarations.size + 2 := by
    rw [hK, newBackingField, Forest.declareLocal, size_declare, hsize]
  refine ⟨G, K, _, hG, hsize, hK, hsize', rfl, ?_⟩
  rw [← hsize', ← hsize, hK, hG]
  rfl

/-- a property, which lists the field and the getter that are made for it -/
theorem Recorded.newProperty {F : Forest} {D : List (DeclarationId × Parent)} {P : List (Node × Node)}
    {package name : String} {q : Parent} {type : TypeRef} {isMutable : Bool} (h : F.Recorded D P)
    (hproperty : (⟨F.declarations.size⟩, q) ∈ D)
    (hfield : (⟨F.declarations.size + 1⟩, .declaration ⟨F.declarations.size⟩) ∈ D)
    (hgetter : (⟨F.declarations.size + 2⟩, .declaration ⟨F.declarations.size⟩) ∈ D) :
    (F.newProperty package q name type isMutable).2.Recorded D P := by
  obtain ⟨G, K, L, hG, hsize, hK, hsize', hL, hresult⟩ := F.exists_newProperty package q name type isMutable
  have hmade : G.Recorded D P := hG ▸ h.declareMember hproperty rfl rfl
  obtain ⟨hwith, hloose⟩ : K.Recorded D P ∧ K.Loose P ⟨F.declarations.size + 1⟩
      (.declaration ⟨F.declarations.size⟩) := by
    rw [hK, ← hsize]
    exact hmade.declareLocal _ _ (hsize ▸ hfield) rfl fun n => Nat.zero_le _
  obtain ⟨hwhole, hgetter'⟩ : L.Recorded D P ∧ L.Loose P ⟨F.declarations.size + 2⟩
      (.declaration ⟨F.declarations.size⟩) := by
    rw [hL, ← hsize']
    exact hwith.declare _ _ rfl rfl (hsize' ▸ hgetter) rfl fun n => Nat.zero_le _
  have hfield' : L.Loose P ⟨F.declarations.size + 1⟩ (.declaration ⟨F.declarations.size⟩) :=
    (hL ▸ sameLinks_declare rfl : K.SameLinks L).loose hloose
  rw [hresult]
  refine hwhole.update [⟨F.declarations.size + 1⟩, ⟨F.declarations.size + 2⟩] (fun x _ => ?_)
    (fun x _ => ?_) (fun x n hx => ?_) (by simp) (by simp [hfield', hgetter'])
  · obtain ⟨_, _, _, _, _, content⟩ := x
    cases content <;> exact ⟨rfl, rfl⟩
  · obtain ⟨_, _, _, _, _, content⟩ := x
    cases content with
    | ofProperty p =>
      exact subperm_pair p.field.toList p.getter.toList p.setter.toList _ _
    | _ => exact (List.sublist_append_left _ _).subperm
  · have hheld := hwhole.held (.declaration ⟨F.declarations.size⟩) n
    rw [held_eq hx] at hheld
    obtain ⟨_, _, _, _, _, content⟩ := x
    cases content <;> exact hheld

/-- the body of a function, whose nodes were placed in it -/
theorem Recorded.setBody {F : Forest} {D : List (DeclarationId × Parent)} {P : List (Node × Node)}
    {a : DeclarationId} {statements : List Statement} (h : F.Recorded D P)
    (hP : (F.function? a).isSome → ∀ n,
      (statements.map Statement.node).count n ≤ P.count (n, .declaration a)) :
    (F.setBody a statements).Recorded D P := by
  refine h.update [] (fun x _ => mapFunction_symbol_parent _ x) (fun x _ => ?_) (fun x n hx => ?_)
    List.nodup_nil fun _ hd => absurd hd List.not_mem_nil
  · rw [List.append_nil]
    obtain ⟨_, _, _, _, _, content⟩ := x
    cases content <;> exact List.Subperm.refl _
  · have hheld := h.held (.declaration a) n
    rw [held_eq hx] at hheld
    have hsome : x.function?.isSome → (F.function? a).isSome := fun hf => by
      rwa [function?, hx, Option.bind_some]
    obtain ⟨_, _, _, _, _, content⟩ := x
    cases content with
    | ofFunction f => exact hP (hsome rfl) n
    | _ => exact hheld

/-- **A call keeps to the record.** -/
theorem Recorded.run {F : Forest} {D : List (DeclarationId × Parent)} {P : List (Node × Node)}
    (h : F.Recorded D P) (c : BuildStep)
    (hc : ∀ x ∈ c.places F, F.Stores x.1 ∧ x.1 ∉ F.listings.map Node.declaration) :
    (c.run F).Recorded (D ++ c.declares F) (P ++ c.places F) := by
  have h := h.more (c.declares F) hc
  have hD : ∀ x ∈ c.declares F, x ∈ D ++ c.declares F := fun x hx => List.mem_append_right _ hx
  generalize D ++ c.declares F = D' at h hD
  have hP : ∀ a n, (c.places F).count (n, a) ≤ (P ++ c.places F).count (n, a) := fun a n => by
    rw [List.count_append]
    exact Nat.le_add_left _ _
  generalize P ++ c.places F = P' at h hP
  cases c with
  | file package path source => exact h.addFile rfl
  | ofClass package q name kind => exact h.declareMember (hD _ (List.mem_singleton_self _)) rfl rfl
  | superType a type =>
    refine h.keep (fun x _ => ⟨x.mapClass_symbol _, x.mapClass_parent _⟩) (fun x => ?_) fun x => ?_ <;>
      (obtain ⟨_, _, _, _, _, content⟩ := x; cases content <;> rfl)
  | enumEntry package a name => exact h.declareMember (hD _ (List.mem_singleton_self _)) rfl rfl
  | function package q name type =>
    exact h.declareMember (hD _ (List.mem_singleton_self _)) rfl rfl
  | constructor package a =>
    cases ht : F.typeOf a with
    | none => simpa only [BuildStep.run, ht] using h
    | some type =>
      have hmem : (⟨F.declarations.size⟩, .declaration a) ∈ (BuildStep.constructor package a).declares F := by
        simp [BuildStep.declares, ht]
      simp only [BuildStep.run, ht]
      exact h.declareMember (hD _ hmem) rfl rfl
  | standIn package q kind name type =>
    exact h.declareMember (hD _ (List.mem_singleton_self _)) rfl rfl
  | valueParameter a name type =>
    refine h.declareSlot (hD _ (List.mem_singleton_self _)) rfl rfl (fun f => ?_) fun _ => rfl
    simpa [Content.listed, declareLocal_fst] using
      subperm_replace (f.typeParameters ++ f.dispatchReceiver.toList ++ f.extensionReceiver.toList
        ++ f.valueParameters) [] [] ⟨F.declarations.size⟩
  | extensionReceiver a type =>
    refine h.declareSlot (hD _ (List.mem_singleton_self _)) rfl rfl (fun f => ?_) fun _ => rfl
    simpa [Content.listed, declareLocal_fst] using
      subperm_replace (f.typeParameters ++ f.dispatchReceiver.toList) f.extensionReceiver.toList
        f.valueParameters ⟨F.declarations.size⟩
  | dispatchReceiver a type =>
    refine h.declareSlot (hD _ (List.mem_singleton_self _)) rfl rfl (fun f => ?_) fun _ => rfl
    simpa [Content.listed, declareLocal_fst] using
      subperm_replace f.typeParameters f.dispatchReceiver.toList
        (f.extensionReceiver.toList ++ f.valueParameters) ⟨F.declarations.size⟩
  | typeParameter a name bounds =>
    refine h.declareParameter (hD _ (List.mem_singleton_self _)) rfl rfl (fun x => ?_) (fun x => ?_)
      fun x => ?_
    · obtain ⟨_, _, _, _, _, content⟩ := x
      cases content <;> exact ⟨rfl, rfl⟩
    · obtain ⟨_, _, _, _, _, content⟩ := x
      cases content with
      | ofFunction f =>
        simpa [Declaration.addTypeParameter, Declaration.mapClass, Declaration.mapFunction,
          Content.listed, declareLocal_fst] using subperm_replace f.typeParameters []
            (f.dispatchReceiver.toList ++ f.extensionReceiver.toList ++ f.valueParameters)
            ⟨F.declarations.size⟩
      | ofClass c =>
        simpa [Declaration.addTypeParameter, Declaration.mapClass, Declaration.mapFunction,
          Content.listed, declareLocal_fst] using subperm_replace c.typeParameters [] c.members ⟨F.declarations.size⟩
      | _ => exact (List.sublist_append_left _ _).subperm
    · obtain ⟨_, _, _, _, _, content⟩ := x
      cases content <;> rfl
  | localVariable a name type initializer =>
    refine (h.declareLocal _ _ (hD _ (List.mem_singleton_self _)) rfl fun n => ?_).1
    refine Nat.le_trans (Nat.le_of_eq ?_) (hP _ n)
    cases initializer with
    | none => rfl
    | some e => exact (count_placed [.expression e] _ n).symm
  | body a statements =>
    refine h.setBody fun hsome n => Nat.le_trans (Nat.le_of_eq ?_) (hP _ n)
    have hplaces : (BuildStep.body a statements).places F
        = (statements.map Statement.node).map fun m => (m, .declaration a) := by
      rw [List.map_map]
      exact if_pos hsome
    rw [hplaces, count_placed]
  | field package q name type => exact h.declareMember (hD _ (List.mem_singleton_self _)) rfl rfl
  | property package q name type isMutable =>
    exact h.newProperty (hD _ (by simp [BuildStep.declares])) (hD _ (by simp [BuildStep.declares]))
      (hD _ (by simp [BuildStep.declares]))
  | missingSymbol package kind name => exact h.addSymbol _ _
  | expression operation type =>
    refine h.addExpression fun n => Nat.le_trans (Nat.le_of_eq ?_) (hP _ n)
    exact (count_placed operation.children _ n).symm

/-! ## the intrinsic file -/

theorem updateDeclaration_addDeclaration (F : Forest) (x : Declaration) {g : Declaration → Declaration}
    (hg : (g x).symbol = x.symbol) :
    (F.addDeclaration x).2.updateDeclaration ⟨F.declarations.size⟩ g = (F.addDeclaration (g x)).2 := by
  have hmodify : (F.declarations.push x).modify F.declarations.size g = F.declarations.push (g x) := by
    refine Array.ext_getElem? fun i => ?_
    rw [Array.getElem?_modify, Array.getElem?_push, Array.getElem?_push]
    by_cases e : i = F.declarations.size
    · simp [e]
    · simp [e, Ne.symm e]
  simp only [updateDeclaration, addDeclaration, updateSymbol, hmodify, hg]

/-- a declaration gets its parent link when it becomes a member -/
theorem attach_addDeclaration (F : Forest) (x : Declaration) (q : Parent) :
    (F.addDeclaration x).2.attach q (F.addDeclaration x).1
      = (F.addDeclaration { x with parent := some q }).2.attach q ⟨F.declarations.size⟩ := by
  have hid : (F.addDeclaration x).1 = ⟨F.declarations.size⟩ := rfl
  simp only [hid, attach, updateDeclaration_addDeclaration]

namespace Recorded

variable {F : Forest} {D : List (DeclarationId × Parent)} {P : List (Node × Node)}

theorem named (name : String) : (Forest.named name).Recorded [] [] where
  declared := fun d hd => by cases hd
  owner := fun d hd => by cases hd
  top := fun f d hd => by cases hd
  top_nodup := fun _ => List.nodup_nil
  listed := fun a d hd => by cases hd
  listed_nodup := fun _ => List.nodup_nil
  held := fun a n => by cases a <;> exact Nat.zero_le _
  known := fun _ _ h => by cases h
  apart := fun _ _ h => by cases h

theorem addIntrinsic (h : F.Recorded D P) (f : FileId) (kind : SymbolKind) (name : String)
    (content : Content) (hl : content.listed = []) (hh : content.held = []) :
    (F.addIntrinsic f kind name content).2.Recorded (D ++ [(⟨F.declarations.size⟩, .file f)]) P := by
  have hmore := h.more [(⟨F.declarations.size⟩, .file f)] (Q := []) fun _ hx => absurd hx List.not_mem_nil
  rw [List.append_nil] at hmore
  obtain ⟨hmade, hloose⟩ := hmore.declare kind (some (.plain intrinsicPackage name))
    (x := ⟨(F.addSymbol kind (some (.plain intrinsicPackage name))).1, name, .defined, some (.file f),
      .undefined, content⟩) rfl rfl (by simp) hl fun n => by rw [hh]; exact Nat.zero_le _
  show ((_ : Forest).attach (.file f) _).Recorded _ _
  rw [attach_addDeclaration]
  exact hmade.attach hloose

/-- the links themselves are a record of what was declared -/
theorem links (h : F.Recorded D P) : F.Recorded F.links P where
  __ := h
  declared := fun d hd => by
    obtain ⟨q, _, hlink⟩ := h.declared d hd
    refine ⟨q, List.mem_filterMap.mpr ⟨d, mem_declarationIds.mpr hd, ?_⟩, hlink⟩
    rw [hlink, Option.map_some]

theorem installIntrinsics (h : F.Recorded D P) :
    F.installIntrinsics.2.Recorded F.installIntrinsics.2.links P := by
  have hfile : (F.newFile intrinsicPackage "<builtins>" "").2.Recorded D P := h.addFile rfl
  have hclass : ∀ {G : Forest} {E} (name : String) (modality : Modality), G.Recorded E P →
      (G.addIntrinsicClass ⟨F.files.size⟩ name modality).2.Recorded
        (E ++ [(⟨G.declarations.size⟩, .file ⟨F.files.size⟩)]) P :=
    fun name _ hG => hG.addIntrinsic _ .classLike name _ rfl rfl
  have hunit := hclass "Unit" .final (hclass "String" .final (hclass "Nothing" .final
    (hclass "Any" .overridable hfile)))
  have hraise := fun type => hunit.addIntrinsic ⟨F.files.size⟩ .function linkageErrorName
    (.ofFunction { FunctionInfo.returning type with body := none }) rfl rfl
  have hmessage := fun type a string => (hraise type).run (.valueParameter a "message" string)
    fun _ hx => absurd hx List.not_mem_nil
  simp only [BuildStep.places, List.append_nil] at hmessage
  exact (hmessage _ _ _).links

end Recorded

end Forest

/-! ## all calls -/

namespace Build

variable {b : Build} {steps : List BuildStep} {name : String}

theorem recorded_start (name : String) :
    (start name).forest.Recorded (start name).declared (start name).placed := by
  have h := (Forest.Recorded.named name).installIntrinsics
  generalize hF : (Forest.named name).installIntrinsics.2 = F at h
  simp only [start, hF]
  exact h

/-- **Calls keep to the record**, whatever they are. -/
theorem recorded_after (h : b.forest.Recorded b.declared b.placed) (hadm : b.Admits steps) :
    (b.after steps).forest.Recorded (b.after steps).declared (b.after steps).placed := by
  induction steps generalizing b with
  | nil => exact h
  | cons c rest ih => exact ih (h.run c hadm.1) hadm.2

/-- **A forest that was built is well-formed.** -/
theorem defects_after_eq_nil (hadm : (start name).Admits steps)
    (honce : (((start name).after steps).placed.map Prod.fst).Nodup)
    (hunder : ∀ d q p, (d, q) ∈ ((start name).after steps).declared →
      Under ((start name).after steps).placed (.declaration d) p → q = .declaration p) :
    ((start name).after steps).forest.defects = [] :=
  ((recorded_after (recorded_start name) hadm).rooted honce hunder).defects_eq_nil

/-- a class with a method and a property, and the body of the method: a block that declares a variable,
which holds a constant, and a class -/
def localClass : List BuildStep :=
  [.file "p" "a" "", .ofClass "p" (.file ⟨1⟩) "A" .plain, .function "p" (.declaration ⟨6⟩) "f" (.simple ⟨3⟩),
    .dispatchReceiver ⟨7⟩ (.simple ⟨6⟩), .valueParameter ⟨7⟩ "x" (.simple ⟨2⟩),
    .property "p" (.declaration ⟨6⟩) "v" (.simple ⟨2⟩) false, .expression (.constant (.integer 1)) (.simple ⟨3⟩),
    .localVariable ⟨7⟩ "y" (.simple ⟨3⟩) (some ⟨0⟩), .ofClass "p" (.declaration ⟨7⟩) "L" .plain,
    .expression (.block [.declaration ⟨13⟩, .declaration ⟨14⟩] none) (.simple ⟨3⟩),
    .body ⟨7⟩ [.expression ⟨1⟩]]

theorem placed_localClass : ((start "m").after localClass).placed
    = [(.expression ⟨0⟩, .declaration ⟨13⟩), (.declaration ⟨13⟩, .expression ⟨1⟩),
      (.declaration ⟨14⟩, .expression ⟨1⟩), (.expression ⟨1⟩, .declaration ⟨7⟩)] := by
  decide +kernel

theorem declared_localClass : ((start "m").after localClass).declared
    = [(⟨0⟩, .file ⟨0⟩), (⟨1⟩, .file ⟨0⟩), (⟨2⟩, .file ⟨0⟩), (⟨3⟩, .file ⟨0⟩), (⟨4⟩, .file ⟨0⟩),
      (⟨5⟩, .declaration ⟨4⟩), (⟨6⟩, .file ⟨1⟩), (⟨7⟩, .declaration ⟨6⟩), (⟨8⟩, .declaration ⟨7⟩), (⟨9⟩, .declaration ⟨7⟩),
      (⟨10⟩, .declaration ⟨6⟩), (⟨11⟩, .declaration ⟨10⟩), (⟨12⟩, .declaration ⟨10⟩),
      (⟨13⟩, .declaration ⟨7⟩), (⟨14⟩, .declaration ⟨7⟩)] := by
  decide +kernel

/-- what is placed below the block is declared for the method -/
theorem under_localClass {d p : DeclarationId} {q : Parent}
    (hd : (d, q) ∈ ((start "m").after localClass).declared)
    (hu : Under ((start "m").after localClass).placed (.declaration d) p) : q = .declaration p := by
  rw [placed_localClass] at hu
  rw [declared_localClass] at hd
  cases hu with
  | inside h => simp at h
  | @through _ e _ h he =>
    obtain ⟨hd', rfl⟩ : (d = ⟨13⟩ ∨ d = ⟨14⟩) ∧ e = ⟨1⟩ := by
      simpa [or_and_right] using h
    have hp : p = ⟨7⟩ := by
      cases he with
      | inside h => simpa using h
      | through h _ => simp at h
    obtain rfl | rfl := hd' <;> simpa [hp] using hd

theorem defects_localClass : (start "m").Admits localClass
    ∧ (((start "m").after localClass).placed.map Prod.fst).Nodup
    ∧ (∀ d q p, (d, q) ∈ ((start "m").after localClass).declared →
      Under ((start "m").after localClass).placed (.declaration d) p → q = .declaration p)
    ∧ ((start "m").after localClass).forest.defects = [] := by
  have hadm : (start "m").Admits localClass := by decide +kernel
  have honce : (((start "m").after localClass).placed.map Prod.fst).Nodup := by
    rw [placed_localClass]
    decide
  exact ⟨hadm, honce, fun _ _ _ => under_localClass,
    defects_after_eq_nil hadm honce fun _ _ _ => under_localClass⟩

end Build

end LinkRepair
