import Mathlib.Data.List.Nodup
import LinkRepair.Proofs.Forest.Reach

/-!
# Lineages

The declarations around a declaration are found by following parent links.  Nothing but the forest
itself can keep that from going round in a circle, so the library bounds it by the number of
declarations.

* `Forest.Ascends`         the ascent without a bound, to a file or to where the links end;
* `Ascends.lineage_eq`, `Ascends.fileOf_eq`   an ascent that ends does so within the bound;
* `parentsAcyclic_iff`     every ascent ends, unless some chain of parent links is a circle;
* `Forest.fileWithin`      the file that a lineage of a given bound ends in;
* `fileWithin_of_le`       a larger bound finds no other file.
-/

namespace LinkRepair

namespace Forest

/-- the ascent from a declaration along the parent links, with the declarations on the way and the
file at its end, if it ends in one -/
inductive Ascends (F : Forest) : DeclarationId → List DeclarationId → Option FileId → Prop
  | gone {d : DeclarationId} (hx : F.declaration? d = none) : F.Ascends d [] none
  | loose {d : DeclarationId} {x : Declaration} (hx : F.declaration? d = some x)
      (hp : x.parent = none) : F.Ascends d [d] none
  | file {d : DeclarationId} {x : Declaration} {f : FileId} (hx : F.declaration? d = some x)
      (hp : x.parent = some (.file f)) : F.Ascends d [d] (some f)
  | up {d a : DeclarationId} {x : Declaration} {l : List DeclarationId} {f : Option FileId}
      (hx : F.declaration? d = some x) (hp : x.parent = some (.declaration a)) (h : F.Ascends a l f) :
      F.Ascends d (d :: l) f

/-- no chain of parent links comes back to where it started -/
def ParentsAcyclic (F : Forest) : Prop :=
  ∀ d, ¬ Relation.TransGen (fun a b => F.parentDeclaration? a = some b) d d

/-- the file that a lineage of at most `bound` declarations ends in -/
def fileWithin (F : Forest) (bound : Nat) (d : DeclarationId) : Option FileId :=
  match ((F.lineageWithin bound d).getLast?.bind F.declaration?).bind Declaration.parent with
  | some (.file f) => some f
  | _ => none

theorem fileOf_eq (F : Forest) (d : DeclarationId) : F.fileOf d = F.fileWithin F.declarations.size d :=
  rfl

section
variable {F : Forest} {d a : DeclarationId} {f : FileId} {g : Option FileId} {l : List DeclarationId}
  {m n : Nat}

/-! ## the ascent -/

theorem Ascends.unique (h : F.Ascends d l g) : ∀ {l' g'}, F.Ascends d l' g' → l = l' ∧ g = g' := by
  induction h with
  | gone hx =>
    rintro _ _ (_ | ⟨hx', _⟩ | ⟨hx', _⟩ | ⟨hx', _⟩) <;> simp_all
  | loose hx hp =>
    rintro _ _ (hx' | ⟨hx', _⟩ | ⟨hx', _⟩ | ⟨hx', _⟩) <;> simp_all
  | file hx hp =>
    rintro _ _ (hx' | ⟨hx', _⟩ | ⟨hx', _⟩ | ⟨hx', _⟩) <;> simp_all
  | up hx hp _ ih =>
    intro l' g' h'
    cases h' with
    | gone hx' => simp_all
    | loose hx' hp' => simp_all
    | file hx' hp' => simp_all
    | up hx' hp' h' =>
      obtain rfl := Option.some.inj (hx.symm.trans hx')
      obtain rfl := Parent.declaration.inj (Option.some.inj (hp.symm.trans hp'))
      obtain ⟨rfl, rfl⟩ := ih h'
      exact ⟨rfl, rfl⟩

theorem Ascends.stored (h : F.Ascends d l g) : ∀ a ∈ l, (F.declaration? a).isSome := by
  induction h with
  | gone => exact fun _ ha => absurd ha List.not_mem_nil
  | loose hx | file hx =>
    intro a ha
    rw [List.mem_singleton.mp ha, hx]
    rfl
  | up hx _ _ ih =>
    intro a ha
    rcases List.mem_cons.mp ha with rfl | ha
    · rw [hx]
      rfl
    · exact ih a ha

/-- the ascent from a declaration on the way is the rest of the ascent -/
theorem Ascends.suffix (h : F.Ascends d l g) : ∀ {a}, a ∈ l → ∃ l', F.Ascends a l' g ∧ l' <:+ l := by
  induction h with
  | gone => exact fun ha => absurd ha List.not_mem_nil
  | loose hx hp =>
    intro a ha
    obtain rfl := List.mem_singleton.mp ha
    exact ⟨_, .loose hx hp, List.suffix_refl _⟩
  | file hx hp =>
    intro a ha
    obtain rfl := List.mem_singleton.mp ha
    exact ⟨_, .file hx hp, List.suffix_refl _⟩
  | up hx hp h ih =>
    intro a ha
    rcases List.mem_cons.mp ha with rfl | ha
    · exact ⟨_, .up hx hp h, List.suffix_refl _⟩
    · obtain ⟨l', hl', hsuffix⟩ := ih ha
      exact ⟨l', hl', hsuffix.trans (List.suffix_cons _ _)⟩

/-- so it meets no declaration twice -/
theorem Ascends.nodup (h : F.Ascends d l g) : l.Nodup := by
  induction h with
  | gone => exact List.nodup_nil
  | loose | file => exact List.nodup_singleton _
  | up hx hp h ih =>
    refine List.nodup_cons.mpr ⟨fun hd => ?_, ih⟩
    obtain ⟨l', hl', hsuffix⟩ := h.suffix hd
    have hlength := hsuffix.length_le
    rw [← (Ascends.up hx hp h).unique hl' |>.1, List.length_cons] at hlength
    omega

theorem Ascends.length_le (h : F.Ascends d l g) : l.length ≤ F.declarations.size :=
  length_le_of_declared h.nodup h.stored

/-- an ascent is found with as many levels as it has declarations -/
theorem Ascends.lineageWithin_eq (h : F.Ascends d l g) : ∀ {n}, l.length ≤ n →
    F.lineageWithin n d = l := by
  induction h with
  | gone hx =>
    rintro (_ | n) _
    · rfl
    · simp [lineageWithin, hx]
  | loose hx hp =>
    rintro (_ | n) hn
    · cases hn
    · simp [lineageWithin, hx, Declaration.parentDeclaration?, hp]
  | file hx hp =>
    rintro (_ | n) hn
    · cases hn
    · exact lineageWithin_of_file n hx hp
  | up hx hp _ ih =>
    rintro (_ | n) hn
    · cases hn
    · rw [lineageWithin_of_parent n hx hp, ih (Nat.le_of_succ_le_succ hn)]

theorem Ascends.fileWithin_eq (h : F.Ascends d l g) (hn : l.length ≤ n) : F.fileWithin n d = g := by
  unfold fileWithin
  rw [h.lineageWithin_eq hn]
  clear hn
  induction h with
  | gone => rfl
  | loose hx hp | file hx hp => simp [hx, hp]
  | @up d a x l g hx hp h ih =>
    cases l with
    | nil =>
      cases h
      simp [hx, hp]
    | cons b l =>
      rw [List.getLast?_cons_cons]
      exact ih

/-- **An ascent that ends does so within the number of declarations.** -/
theorem Ascends.lineage_eq (h : F.Ascends d l g) : F.lineage d = l := h.lineageWithin_eq h.length_le

theorem Ascends.fileOf_eq (h : F.Ascends d l g) : F.fileOf d = g := h.fileWithin_eq h.length_le

/-- the declarations on the way up are all different, so there are not more of them than there are
declarations -/
theorem exists_ascends_above (hF : F.ParentsAcyclic) (way : List DeclarationId) (d : DeclarationId)
    (hway : ∀ a ∈ way, Relation.TransGen (fun a b => F.parentDeclaration? a = some b) a d)
    (hnodup : way.Nodup) (hstored : ∀ a ∈ way, (F.declaration? a).isSome) : ∃ l g, F.Ascends d l g := by
  cases hx : F.declaration? d with
  | none => exact ⟨_, _, .gone hx⟩
  | some x =>
    have hd : (F.declaration? d).isSome := Option.isSome_iff_exists.mpr ⟨x, hx⟩
    have hnodup' : (d :: way).Nodup := List.nodup_cons.mpr ⟨fun h => hF d (hway d h), hnodup⟩
    have hstored' : ∀ a ∈ d :: way, (F.declaration? a).isSome := List.forall_mem_cons.mpr ⟨hd, hstored⟩
    cases hp : x.parent with
    | none => exact ⟨_, _, .loose hx hp⟩
    | some parent =>
      cases parent with
      | file f => exact ⟨_, _, .file hx hp⟩
      | declaration b =>
        have hdb : F.parentDeclaration? d = some b := by
          simp [parentDeclaration?, hx, Declaration.parentDeclaration?, hp]
        have hlength : way.length + 1 ≤ F.declarations.size := length_le_of_declared hnodup' hstored'
        obtain ⟨l, g, h⟩ := exists_ascends_above hF (d :: way) b (fun a ha => by
          rcases List.mem_cons.mp ha with rfl | ha
          · exact .single hdb
          · exact (hway a ha).tail hdb) hnodup' hstored'
        exact ⟨_, _, .up hx hp h⟩
termination_by F.declarations.size - way.length
decreasing_by
  rw [List.length_cons]
  omega

/-- **Where no chain of parent links is a circle, every ascent ends.** -/
theorem exists_ascends (hF : F.ParentsAcyclic) (d : DeclarationId) : ∃ l g, F.Ascends d l g :=
  exists_ascends_above hF [] d (fun _ h => absurd h List.not_mem_nil) List.nodup_nil
    fun _ h => absurd h List.not_mem_nil

/-! ## within a bound -/

theorem isSome_of_mem_lineageWithin : ∀ {n : Nat} {d a : DeclarationId}, a ∈ F.lineageWithin n d →
    (F.declaration? a).isSome
  | 0, _, _, h => absurd h List.not_mem_nil
  | n + 1, d, a, h => by
    unfold lineageWithin at h
    cases hx : F.declaration? d with
    | none => simp [hx] at h
    | some x =>
      simp only [hx] at h
      rcases List.mem_cons.mp h with rfl | h
      · exact Option.isSome_iff_exists.mpr ⟨x, hx⟩
      · split at h
        · exact absurd h List.not_mem_nil
        · exact isSome_of_mem_lineageWithin h

/-- a lineage that ends in a file is an ascent to that file -/
theorem exists_ascends_of_fileWithin : ∀ {n : Nat} {d : DeclarationId}, F.fileWithin n d = some f →
    ∃ l, F.Ascends d l (some f) ∧ l.length ≤ n
  | 0, _, h => by cases h
  | n + 1, d, h => by
    unfold fileWithin at h
    cases hx : F.declaration? d with
    | none => simp [lineageWithin, hx] at h
    | some x =>
      cases hp : x.parent with
      | none => simp [lineageWithin, hx, Declaration.parentDeclaration?, hp] at h
      | some parent =>
        cases parent with
        | file g =>
          rw [lineageWithin_of_file n hx hp] at h
          simp only [List.getLast?_singleton, Option.bind_some, hx, hp, Option.some.injEq] at h
          exact ⟨[d], .file hx (h ▸ hp), Nat.succ_le_succ (Nat.zero_le n)⟩
        | declaration b =>
          rw [lineageWithin_of_parent n hx hp] at h
          cases hl : F.lineageWithin n b with
          | nil => simp [hl, hx, hp] at h
          | cons c rest =>
            rw [hl, List.getLast?_cons_cons, ← hl] at h
            obtain ⟨l, hb, hlength⟩ := exists_ascends_of_fileWithin (n := n) (d := b) h
            exact ⟨d :: l, .up hx hp hb, Nat.succ_le_succ hlength⟩

/-- **A lineage that ends in a file does so within the number of declarations.** -/
theorem lineageWithin_of_fileWithin (h : F.fileWithin m d = some f) :
    F.lineageWithin m d = F.lineage d := by
  obtain ⟨l, hl, hlength⟩ := exists_ascends_of_fileWithin h
  rw [hl.lineageWithin_eq hlength, hl.lineage_eq]

/-- more levels than there are declarations do not matter -/
theorem fileWithin_of_le (hle : F.declarations.size ≤ m) : F.fileWithin m d = F.fileOf d := by
  cases h : F.fileWithin m d with
  | some f =>
    obtain ⟨l, hl, _⟩ := exists_ascends_of_fileWithin h
    exact hl.fileOf_eq.symm
  | none =>
    cases h' : F.fileOf d with
    | none => rfl
    | some f =>
      obtain ⟨l, hl, hlength⟩ := exists_ascends_of_fileWithin h'
      rw [hl.fileWithin_eq (Nat.le_trans hlength hle)] at h
      cases h

/-! ## circles -/

/-- above a declaration whose ascent ends, ascents end sooner -/
theorem Ascends.of_transGen (h : F.Ascends d l g)
    (ha : Relation.TransGen (fun a b => F.parentDeclaration? a = some b) d a) :
    ∃ l', F.Ascends a l' g ∧ l'.length < l.length := by
  have hstep : ∀ {b c k}, F.Ascends b k g → F.parentDeclaration? b = some c →
      ∃ l', F.Ascends c l' g ∧ l'.length < k.length := by
    intro b c k hb hbc
    obtain ⟨x, hx, hxc⟩ := Option.bind_eq_some_iff.mp hbc
    cases hb with
    | gone hx' => cases hx'.symm.trans hx
    | loose hx' hp | file hx' hp =>
      obtain rfl := Option.some.inj (hx'.symm.trans hx)
      simp [Declaration.parentDeclaration?, hp] at hxc
    | up hx' hp hc =>
      obtain rfl := Option.some.inj (hx'.symm.trans hx)
      simp only [Declaration.parentDeclaration?, hp, Option.some.injEq] at hxc
      exact ⟨_, hxc ▸ hc, Nat.lt_succ_self _⟩
  induction ha with
  | single hb => exact hstep h hb
  | tail _ hc ih =>
    obtain ⟨k, hk, hlt⟩ := ih
    obtain ⟨l', hl', hlt'⟩ := hstep hk hc
    exact ⟨l', hl', Nat.lt_trans hlt' hlt⟩

/-- **An ascent goes on for ever on a circle of parent links only.** -/
theorem parentsAcyclic_iff : F.ParentsAcyclic ↔ ∀ d, ∃ l g, F.Ascends d l g := by
  refine ⟨exists_ascends, fun h d hd => ?_⟩
  obtain ⟨l, g, hl⟩ := h d
  obtain ⟨l', hl', hlt⟩ := hl.of_transGen hd
  rw [(hl.unique hl').1] at hlt
  exact Nat.lt_irrefl _ hlt

theorem parentsAcyclic_of_fileOf (h : ∀ d ∈ F.declarationIds, (F.fileOf d).isSome) :
    F.ParentsAcyclic := by
  refine parentsAcyclic_iff.mpr fun d => ?_
  cases hx : F.declaration? d with
  | none => exact ⟨_, _, .gone hx⟩
  | some x =>
    obtain ⟨f, hf⟩ := Option.isSome_iff_exists.mp
      (h d (mem_declarationIds.mpr (Option.isSome_iff_exists.mpr ⟨x, hx⟩)))
    rw [F.fileOf_eq] at hf
    obtain ⟨l, hl, _⟩ := exists_ascends_of_fileWithin hf
    exact ⟨l, _, hl⟩

end

end Forest

end LinkRepair
