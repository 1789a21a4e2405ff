import LinkRepair.Proofs.Exploration.Recursion
import LinkRepair.Proofs.Repair.Verdicts

/-!
# Questions of a repair without a memo

Where classifiers rest on each other in no cycle, every question of the sweep over declarations has
the answer of the plain recursion in the forest that the repair started with: a declaration whose
classifier has no answer yet stands as it stood there.

* `Forest.Acyclic`                   no classifier rests on itself;
* `Step.superTypes`                  a class loses super types only when it was asked about;
* `Pass.Plain`                       the answers of a pass are those of the recursion in `F`;
* `Plain.chain`, `Plain.ask`         steps keep that, and so does a question, which has that answer.
-/

namespace LinkRepair

namespace Forest

/-- no classifier rests on itself, over any number of others -/
def Acyclic (F : Forest) : Prop := ∀ s, ¬ Relation.TransGen F.DependsOn s s

section
variable {F : Forest}

theorem Acyclic.founds (h : F.Acyclic) (hN : F.NeedsKnown) : F.Founds F.Knows where
  grounded := fun _ _ => ⟨_, shallow_size fun t _ ht =>
    h t (Relation.TransGen.mono (fun _ _ => DependsOn.of_needs) _ _ ht)⟩
  needs := fun s t _ ht => hN s t ht

/-- a cause names symbols of the forest -/
theorem knows_of_plainWithin (hN : F.NeedsKnown) : ∀ {levels : Nat} {s : SymbolId} {k : Cause},
    F.Knows s → F.plainWithin levels s = some k → ∀ l ∈ k.links, F.Knows l.symbol
  | 0, _, _, _, h => by cases h
  | levels + 1, s, k, hs, h => by
    rw [plainWithin, judge_eq] at h
    have hneeds := hN s
    cases hst : F.standing s with
    | broken c =>
      rw [hst] at h
      obtain rfl := Option.some.inj h
      have hc : c.links = [c] ∧ c.symbol = s := by
        unfold standing at hst
        split at hst
        · cases hst; exact ⟨rfl, rfl⟩
        · split at hst
          · cases hst; exact ⟨rfl, rfl⟩
          · unfold standingOf at hst
            split at hst
            · cases hst; exact ⟨rfl, rfl⟩
            · split at hst
              · split at hst <;> cases hst
                exact ⟨rfl, rfl⟩
              · cases hst
              · cases hst
      intro l hl
      rw [hc.1, List.mem_singleton] at hl
      rwa [hl, hc.2]
    | rests needs isClass =>
      rw [hst] at h hneeds
      obtain ⟨root, hroot, rfl⟩ := Option.map_eq_some_iff.mp h
      obtain ⟨t, ht, htv⟩ := List.exists_of_findSome?_eq_some hroot
      have hbelow := knows_of_plainWithin hN (hneeds t ht) htv
      unfold blame
      split
      · intro l hl
        rcases List.mem_cons.mp hl with rfl | hl
        · exact hs
        · exact hbelow l hl
      · exact hbelow

theorem knows_of_plainVerdict (hN : F.NeedsKnown) {s : SymbolId} {k : Cause} (hs : F.Knows s)
    (h : F.plainVerdict s = some k) : ∀ l ∈ k.links, F.Knows l.symbol :=
  knows_of_plainWithin hN hs h

theorem Cause.symbol_mem (k : Cause) : ∃ l ∈ k.links, l.symbol = k.symbol := by
  cases k with
  | due s root => exact ⟨_, List.mem_cons_self, rfl⟩
  | _ => exact ⟨_, List.mem_cons_self, rfl⟩

end

end Forest

/-- what a step from the forest `F` to `G` makes of one declaration -/
inductive Declaration.Turns (I : Intrinsics) (m : Memo) (F G : Forest) (x : Declaration) :
    Declaration → Prop
  | amended {y : Declaration} (h : x.Amends I F m y) : Turns I m F G x y
  | raised {e : ExpressionId} (h : F.expression? e = none) :
      Turns I m F G x (x.withBody [.expression e])
  | extended {added : List DeclarationId}
      (h : ∀ a ∈ added, F.declaration? a = none ∧ G.HasRoutine a) : Turns I m F G x (x.enlist added)

theorem Declaration.Turns.refl {I : Intrinsics} {m : Memo} {F G : Forest} (x : Declaration) :
    x.Turns I m F G x := by
  have h : x.Turns I m F G (x.enlist []) := .extended fun _ ha => absurd ha List.not_mem_nil
  rwa [Declaration.enlist_nil] at h

/-- a class keeps its super types, unless it was asked about -/
theorem Declaration.Turns.superTypes {I : Intrinsics} {m : Memo} {F G : Forest} {x y : Declaration}
    (h : x.Turns I m F G y) (hm : m.find? x.symbol = none) :
    y.class?.map ClassInfo.superTypes = x.class?.map ClassInfo.superTypes := by
  obtain ⟨symbol, name, origin, parent, span, content⟩ := x
  cases h with
  | amended h =>
    cases h with
    | superTypes _ hs =>
      rw [hm] at hs
      cases hs
    | _ => cases content <;> rfl
  | raised | extended => cases content <;> rfl

namespace Pass

section
variable {cx : Context} {c : Scope} {F : Forest} {p q : Pass} {d : DeclarationId} {x : Declaration}
  {s : SymbolId}

/-! ## what is not answered yet -/

/-- **What a step makes of a declaration** that is there. -/
theorem Step.declaration? (h : Step cx c p q) (hx : p.forest.declaration? d = some x) :
    ∃ y, q.forest.declaration? d = some y ∧ x.Turns cx.intrinsics q.memo p.forest q.forest y := by
  have hgrows : ∀ {D}, Forest.Grows D p.forest q.forest → ∃ y, q.forest.declaration? d = some y
      ∧ x.Turns cx.intrinsics q.memo p.forest q.forest y := fun hg =>
    have ⟨added, hy, ha, _⟩ := hg.declaration? d x hx
    ⟨_, hy, .extended ha⟩
  cases h with
  | ask => exact ⟨x, hx, .refl x⟩
  | examine => exact ⟨x, hx, .refl x⟩
  | @amend a g _ ha =>
    by_cases e : a = d
    · obtain rfl := e
      refine ⟨g x, ?_, .amended (ha x hx)⟩
      show (p.forest.updateDeclaration a g).declaration? a = some (g x)
      rw [Forest.declaration?_updateDeclaration, if_pos rfl, hx, Option.map_some]
    · exact ⟨x, (Forest.declaration?_update_of_ne e).trans hx, .refl x⟩
  | @raise a problem =>
    by_cases e : a = d
    · obtain rfl := e
      refine ⟨_, ?_, .raised (e := ⟨p.forest.expressions.size + 1⟩) (by simp [Forest.expression?])⟩
      rw [declaration?_raiseIn, if_pos rfl, hx, Option.map_some]
    · exact ⟨x, by rw [declaration?_raiseIn, if_neg e, hx], .refl x⟩
  | initializer _ hd =>
    obtain ⟨info', hinfo'⟩ := Option.isSome_iff_exists.mp hd
    exact hgrows (Forest.grows_newInitializer (D := fun _ => True) trivial
      (Forest.isSome_of_class? hinfo'))
  | member => exact hgrows (Forest.grows_copyMember (D := fun _ => True) trivial)

/-- **A classifier that was not asked about stands as it stood.** -/
theorem Step.standing (h : Step cx c p q) (hp : p.forest.ParentsKnown) (hs : p.forest.Knows s)
    (ho : ∀ d, p.forest.owner? s = some d → ∃ x, p.forest.declaration? d = some x ∧ x.symbol = s)
    (hm : q.memo.find? s = none) : q.forest.standing s = p.forest.standing s := by
  have hf := h.frames
  have howner := hf.owner?_eq hs
  cases hown : p.forest.owner? s with
  | none =>
    rw [Forest.standing_of_owner?_none hown, Forest.standing_of_owner?_none (howner.trans hown)]
  | some d =>
    obtain ⟨x, hx, rfl⟩ := ho d hown
    obtain ⟨y, hy, hturns⟩ := h.declaration? hx
    have hb := hf.becomes hx hy
    rw [Forest.standing_of_owner? hown hx, Forest.standing_of_owner? (howner.trans hown) hy]
    unfold Forest.standingOf
    rw [hb.origin]
    have hsuper := hturns.superTypes hm
    have hcontent := hb.content
    unfold Declaration.class? at hsuper
    generalize x.content = content at hcontent hsuper
    generalize y.content = content' at hcontent hsuper
    cases hcontent with
    | @ofClass info superTypes added _ _ _ =>
      have htypes : superTypes = info.superTypes := Option.some.inj hsuper
      obtain rfl := htypes
      have hneeds : ({ info with members := info.members ++ added } : ClassInfo).needsEnclosing
        = info.needsEnclosing := rfl
      simp only [hneeds, hf.lacksEnclosing hp hx, Forest.classNeeds, hf.enclosingSymbol? hp hx]
    | @ofTypeParameter info info' hinfo =>
      rcases hinfo with rfl | ⟨k, hk, _⟩
      · rfl
      · rw [hm] at hk
        cases hk
    | _ => rfl

/-! ## answers -/

/-- a stage of the repair of `F` in which the answers are those of the recursion in `F` -/
structure Plain (I : Intrinsics) (F : Forest) (p : Pass) : Prop extends p.Sane where
  frames : Frames I (fun _ => True) (fun _ => True) (.start F) p
  memo : p.memo.Plain F F.Knows
  stands : F.StandsAs F.Knows p.forest p.memo

theorem plain_start (I : Intrinsics) (hP : F.ParentsKnown) : (start F).Plain I F where
  toSane := sane_start hP
  frames := .refl _
  memo := Memo.plain_empty F _
  stands := F.standsAs_refl _ _

section
variable (hF : F.Founds F.Knows)
include hF

theorem Plain.ask (h : p.Plain cx.intrinsics F) (l : List SymbolId) :
    (p.ask l).2.Plain cx.intrinsics F
    ∧ ((∀ s ∈ l, F.Knows s) → (p.ask l).1 = l.findSome? F.plainVerdict) := by
  obtain ⟨hm, hv⟩ := Forest.plain_exploreFirst hF.settles (l := l) h.memo h.stands
  have hkept := (Forest.asked_exploreFirst p.forest l p.memo).keptIn
  have hstep : Step cx ⟨fun _ => True, fun _ => True, fun _ => True⟩ p (p.ask l).2 := .ask p l
  exact ⟨⟨(hstep.sane h.toSane).1, h.frames.trans hstep.frames, hm, h.stands.keptIn hkept⟩, hv⟩

theorem Plain.step (h : p.Plain cx.intrinsics F) (hP : F.ParentsKnown) (hO : F.OwnersMatch)
    (hs : Step cx c p q) : q.Plain cx.intrinsics F := by
  rcases hs.memo with hmemo | ⟨l, rfl⟩
  · refine ⟨(hs.sane h.toSane).1,
      h.frames.trans (hs.frames.mono (fun _ _ => trivial) fun _ _ => trivial), hmemo ▸ h.memo,
      fun s hknown hnone => ?_⟩
    rw [hs.standing (h.frames.parentsKnown hP) (h.frames.isSome_symbol? hknown)
      (fun d hd => h.frames.ownersMatch hO hknown hd) hnone]
    exact h.stands s hknown (hmemo ▸ hnone)
  · exact (h.ask hF l).1

/-- **A chain of steps keeps the answers those of the recursion.** -/
theorem Plain.chain (h : p.Plain cx.intrinsics F) (hP : F.ParentsKnown) (hO : F.OwnersMatch)
    (hc : Chain cx c p q) : q.Plain cx.intrinsics F := by
  induction hc with
  | refl => exact h
  | tail _ hs ih => exact ih.step hF hP hO hs

end

end

end Pass

end LinkRepair
