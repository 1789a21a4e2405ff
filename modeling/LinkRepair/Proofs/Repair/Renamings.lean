import Mathlib.Data.List.Nodup
import Mathlib.Data.List.Zip
import LinkRepair.Repair.Members

/-!
# Types renamed forth and back

The types of a copied function are written in terms of the copies of its type parameters.  Where the
copies have symbols that the types do not mention, nothing is lost: the types are found again by the
opposite renaming, and what is renamed is not mentioned any more.

* `TypeRef.rename_rename_eq_self`   a renaming undone on what is mentioned;
* `Renaming.apply_of_mem`           a renaming whose pairs do not get in each other's way;
* `Renaming.apply_swap_apply`       the opposite renaming;
* `Forest.TypeCopy`                 a type in terms of copies, from which the old one is found again;
* `typeCopy_rename`                 what a renaming makes of a type.
-/

namespace LinkRepair

/-- a renaming undone on all that a type mentions is undone on the type -/
theorem TypeRef.rename_rename_eq_self {f g : SymbolId → SymbolId} (t : TypeRef) :
    (∀ s ∈ t.mentioned, g (f s) = s) → (t.rename f).rename g = t := by
  induction t using TypeRef.rec
    (motive_2 := fun a => (∀ s ∈ TypeArgument.mentioned [a], g (f s) = s) →
      TypeArgument.rename g (TypeArgument.rename f [a]) = [a])
    (motive_3 := fun as => (∀ s ∈ TypeArgument.mentioned as, g (f s) = s) →
      TypeArgument.rename g (TypeArgument.rename f as) = as) with
  | named c as n ih =>
    intro h
    rw [TypeRef.mentioned, List.forall_mem_cons] at h
    rw [TypeRef.rename, TypeRef.rename, h.1, ih h.2]
  | marker e u => exact fun _ => rfl
  | star => rfl
  | projection t ih h =>
    rw [TypeArgument.mentioned, TypeArgument.mentioned, List.append_nil] at h
    simp only [TypeArgument.rename, ih h]
  | nil => rfl
  | cons a as iha ihas h =>
    cases a with
    | star =>
      simp only [TypeArgument.rename, ihas h]
    | projection t =>
      rw [TypeArgument.mentioned, List.forall_mem_append] at h
      have ht := iha fun s hs => h.1 s (by
        rwa [TypeArgument.mentioned, TypeArgument.mentioned, List.append_nil] at hs)
      simp only [TypeArgument.rename, List.cons.injEq, and_true] at ht
      simp only [TypeArgument.rename, ht, ihas h.2]

/-! ## the pairs of a renaming -/

namespace Forest

namespace Renaming

variable {r : Renaming} {s t : SymbolId}

/-- what is renamed by a pair of its own -/
theorem apply_of_mem (hr : (r.map Prod.fst).Nodup) (h : (s, t) ∈ r) : r.apply s = t := by
  induction r with
  | nil => cases h
  | cons p r ih =>
    obtain ⟨hp, hr⟩ := List.nodup_cons.mp hr
    rw [apply, List.lookup_cons]
    rcases List.mem_cons.mp h with rfl | h
    · simp only [beq_self_eq_true, Option.getD_some]
    · have hne : (s == p.1) = false := beq_false_of_ne fun e =>
        hp (e ▸ List.mem_map_of_mem (f := Prod.fst) h)
      simp only [hne]
      exact ih hr h

/-- what no pair renames -/
theorem apply_of_not_mem (h : s ∉ r.map Prod.fst) : r.apply s = s := by
  rw [apply, List.lookup_eq_none_iff.mpr, Option.getD_none]
  intro p hp
  simpa using fun e : s = p.1 => h (e ▸ List.mem_map_of_mem (f := Prod.fst) hp)

/-- the order of the pairs does not matter -/
theorem apply_reverse (hr : (r.map Prod.fst).Nodup) (s : SymbolId) :
    Renaming.apply r.reverse s = r.apply s := by
  by_cases h : s ∈ r.map Prod.fst
  · obtain ⟨⟨_, t⟩, hmem, rfl⟩ := List.mem_map.mp h
    rw [apply_of_mem hr hmem, apply_of_mem (r := r.reverse) _ (List.mem_reverse.mpr hmem)]
    rw [List.map_reverse]
    exact List.nodup_reverse.mpr hr
  · rw [apply_of_not_mem h, apply_of_not_mem (r := r.reverse)]
    rwa [List.map_reverse, List.mem_reverse]

section
variable (hkeys : (r.map Prod.fst).Nodup)
include hkeys

/-- **The opposite renaming**, on what none of the new symbols is. -/
theorem apply_swap_apply (hvalues : (r.map Prod.snd).Nodup) (hs : s ∉ r.map Prod.snd) :
    Renaming.apply (r.map Prod.swap) (r.apply s) = s := by
  have hfst : (r.map Prod.swap).map Prod.fst = r.map Prod.snd := by
    rw [List.map_map]
    rfl
  by_cases h : s ∈ r.map Prod.fst
  · obtain ⟨⟨_, t⟩, hmem, rfl⟩ := List.mem_map.mp h
    rw [apply_of_mem hkeys hmem]
    exact apply_of_mem (r := r.map Prod.swap) (hfst ▸ hvalues) (List.mem_map_of_mem (f := Prod.swap) hmem)
  · rw [apply_of_not_mem h, apply_of_not_mem (r := r.map Prod.swap) (hfst ▸ hs)]

/-- what is renamed does not come out, unless something is renamed to it -/
theorem apply_not_mem (hnew : ∀ s ∈ r.map Prod.fst, s ∉ r.map Prod.snd) (s : SymbolId) :
    r.apply s ∉ r.map Prod.fst := by
  by_cases h : s ∈ r.map Prod.fst
  · obtain ⟨⟨_, t⟩, hmem, rfl⟩ := List.mem_map.mp h
    rw [apply_of_mem hkeys hmem]
    exact fun ht => hnew t ht (List.mem_map_of_mem (f := Prod.snd) hmem)
  · rwa [apply_of_not_mem h]

end

end Renaming

/-! ## types in terms of copies -/

/-- `t'` is `t` in terms of copies of the symbols `own`: it mentions none of them, and is `t` when the
copies are renamed back -/
def TypeCopy (own : List SymbolId) (back : Renaming) (t t' : TypeRef) : Prop :=
  t'.rename back.apply = t ∧ ∀ s ∈ own, s ∉ t'.mentioned

/-- **A renaming to new symbols** puts a type in terms of them. -/
theorem typeCopy_rename {own news : List SymbolId} {t : TypeRef} (hlength : own.length = news.length)
    (hown : own.Nodup) (hnews : news.Nodup) (hnew : ∀ s ∈ own, s ∉ news) (ht : ∀ s ∈ t.mentioned, s ∉ news) :
    TypeCopy own (news.zip own) t (t.rename (Renaming.apply (own.zip news).reverse)) := by
  have hkeys : (own.zip news).map Prod.fst = own := List.map_fst_zip (Nat.le_of_eq hlength)
  have hvalues : (own.zip news).map Prod.snd = news := List.map_snd_zip (Nat.le_of_eq hlength.symm)
  have hdistinct : ((own.zip news).map Prod.fst).Nodup := by rwa [hkeys]
  rw [funext (Renaming.apply_reverse hdistinct), ← List.zip_swap]
  refine ⟨t.rename_rename_eq_self fun s hs => ?_, fun s hs hmem => ?_⟩
  · exact Renaming.apply_swap_apply hdistinct (by rwa [hvalues]) (by rw [hvalues]; exact ht s hs)
  · rw [TypeRef.mentioned_rename] at hmem
    obtain ⟨u, _, rfl⟩ := List.mem_map.mp hmem
    refine Renaming.apply_not_mem hdistinct (fun s hs => ?_) u (by rwa [hkeys])
    rw [hvalues]
    rw [hkeys] at hs
    exact hnew s hs

end Forest

end LinkRepair
