import Mathlib.Data.List.Perm.Subperm
import Mathlib.Logic.Relation
import Mathlib.Order.Lattice.Nat

/-!
# Paths

* `Below step k a n`     `n` is `k` steps below `a`;
* `Path step l a n`      the same, with the nodes above `n` listed;
* `exists_path_nodup`    a node that is reached is reached by a path that meets no node twice;
* `exists_below_length`  when only nodes of a finite stock have anything below them, such a path is
                         not longer than the stock;
* `distance step a n`    how many steps `n` is below `a` at the least.
-/

namespace LinkRepair

section
variable {ν : Type}

def Below (step : ν → ν → Prop) : Nat → ν → ν → Prop
  | 0, a, n => n = a
  | k + 1, a, n => ∃ b, step a b ∧ Below step k b n

def Path (step : ν → ν → Prop) : List ν → ν → ν → Prop
  | [], a, n => n = a
  | b :: l, a, n => b = a ∧ ∃ c, step a c ∧ Path step l c n

variable {step : ν → ν → Prop} {a n : ν}

theorem Path.below {l : List ν} : ∀ {a : ν}, Path step l a n → Below step l.length a n := by
  induction l with
  | nil => exact fun h => h
  | cons b l ih =>
    rintro a ⟨rfl, c, hc, h⟩
    exact ⟨c, hc, ih h⟩

theorem Below.reflTransGen {k : Nat} : ∀ {a : ν}, Below step k a n →
    Relation.ReflTransGen step a n := by
  induction k with
  | zero =>
    intro a h
    obtain rfl := h
    exact .refl
  | succ k ih =>
    rintro a ⟨b, hb, h⟩
    exact .head hb (ih h)

theorem Below.mono {step' : ν → ν → Prop} (h : ∀ b c, step b c → step' b c) {k : Nat} :
    ∀ {a : ν}, Below step k a n → Below step' k a n := by
  induction k with
  | zero => exact fun h => h
  | succ k ih =>
    rintro a ⟨b, hb, hbelow⟩
    exact ⟨b, h a b hb, ih hbelow⟩

/-- one level more, at the end -/
theorem Below.tail {k : Nat} {c : ν} (hc : step n c) : ∀ {a : ν}, Below step k a n →
    Below step (k + 1) a c := by
  induction k with
  | zero =>
    intro a h
    obtain rfl := h
    exact ⟨c, hc, rfl⟩
  | succ k ih =>
    rintro a ⟨b, hb, h⟩
    exact ⟨b, hb, ih h⟩

/-- the last step of those that lead to a node -/
theorem Below.exists_last {k : Nat} : ∀ {a : ν}, Below step (k + 1) a n →
    ∃ b, Below step k a b ∧ step b n := by
  induction k with
  | zero =>
    rintro a ⟨b, hb, h⟩
    obtain rfl := h
    exact ⟨a, rfl, hb⟩
  | succ k ih =>
    rintro a ⟨b, hb, h⟩
    obtain ⟨c, hc, hcn⟩ := ih h
    exact ⟨c, ⟨b, hb, hc⟩, hcn⟩

theorem exists_below_of_reflTransGen (h : Relation.ReflTransGen step a n) : ∃ k, Below step k a n := by
  induction h with
  | refl => exact ⟨0, rfl⟩
  | tail _ hbc ih =>
    obtain ⟨k, hk⟩ := ih
    exact ⟨k + 1, hk.tail hbc⟩

theorem Path.exists_step {l : List ν} {b : ν} : ∀ {a : ν}, Path step l a n → b ∈ l →
    ∃ c, step b c := by
  induction l with
  | nil => exact fun _ hb => absurd hb List.not_mem_nil
  | cons d l ih =>
    rintro a ⟨rfl, c, hc, h⟩ hb
    rcases List.mem_cons.mp hb with rfl | hb
    · exact ⟨c, hc⟩
    · exact ih h hb

/-- the part of a path that starts at one of its nodes -/
theorem Path.suffix {l : List ν} {b : ν} : ∀ {a : ν}, Path step l a n → b ∈ l →
    ∃ l', l'.Sublist l ∧ Path step l' b n := by
  induction l with
  | nil => exact fun _ hb => absurd hb List.not_mem_nil
  | cons d l ih =>
    rintro a ⟨rfl, c, hc, h⟩ hb
    rcases List.mem_cons.mp hb with rfl | hb
    · exact ⟨b :: l, List.Sublist.refl _, rfl, c, hc, h⟩
    · obtain ⟨l', hl, h'⟩ := ih h hb
      exact ⟨l', hl.trans (List.sublist_cons_self _ _), h'⟩

theorem exists_path_nodup (h : Relation.ReflTransGen step a n) :
    ∃ l, Path step l a n ∧ l.Nodup ∧ n ∉ l := by
  induction h using Relation.ReflTransGen.head_induction_on with
  | refl => exact ⟨[], rfl, List.nodup_nil, List.not_mem_nil⟩
  | @head a b hab _ ih =>
    obtain ⟨l, hl, hnd, hn⟩ := ih
    by_cases ha : a ∈ l
    · obtain ⟨l', hsub, h'⟩ := hl.suffix ha
      exact ⟨l', h', hnd.sublist hsub, fun hm => hn (hsub.subset hm)⟩
    · by_cases e : n = a
      · exact ⟨[], e, List.nodup_nil, List.not_mem_nil⟩
      · refine ⟨a :: l, ⟨rfl, b, hab, hl⟩, List.nodup_cons.mpr ⟨ha, hnd⟩, fun hm => ?_⟩
        rcases List.mem_cons.mp hm with h | h
        · exact e h
        · exact hn h

theorem length_le_of_nodup {l stock : List ν} (h : l.Nodup) (hs : l ⊆ stock) :
    l.length ≤ stock.length := (List.subperm_of_subset h hs).length_le

/-- **A node that is reached is at most as deep as there are nodes with anything below them.** -/
theorem exists_below_length (stock : List ν) (hstock : ∀ b c, step b c → b ∈ stock)
    (h : Relation.ReflTransGen step a n) :
    ∃ k, k ≤ stock.length ∧ (n ∈ stock → k < stock.length) ∧ Below step k a n := by
  obtain ⟨l, hl, hnd, hn⟩ := exists_path_nodup h
  have hsub : l ⊆ stock := fun b hb => by
    obtain ⟨c, hc⟩ := hl.exists_step hb
    exact hstock b c hc
  refine ⟨l.length, length_le_of_nodup hnd hsub, fun hmem => ?_, hl.below⟩
  have := length_le_of_nodup (List.nodup_cons.mpr ⟨hn, hnd⟩) (List.cons_subset.mpr ⟨hmem, hsub⟩)
  rwa [List.length_cons] at this

/-! ## distances -/

/-- the least number of steps that lead from one node to another, if any do -/
noncomputable def distance (step : ν → ν → Prop) (a n : ν) : Nat := sInf {k | Below step k a n}

theorem Below.distance_le {k : Nat} (h : Below step k a n) : distance step a n ≤ k := Nat.sInf_le h

theorem below_distance (h : Relation.ReflTransGen step a n) : Below step (distance step a n) a n :=
  Nat.sInf_mem (exists_below_of_reflTransGen h)

theorem distance_le_of_step {b : ν} (h : Relation.ReflTransGen step a n) (hb : step n b) :
    distance step a b ≤ distance step a n + 1 := ((below_distance h).tail hb).distance_le

/-- a node that is reached lies one step beyond one that is nearer -/
theorem exists_nearer (h : Relation.ReflTransGen step a n) (hne : n ≠ a) :
    ∃ b, Relation.ReflTransGen step a b ∧ step b n ∧ distance step a b < distance step a n := by
  have hn := below_distance h
  cases hk : distance step a n with
  | zero =>
    rw [hk] at hn
    exact absurd hn hne
  | succ k =>
    rw [hk] at hn
    obtain ⟨b, hb, hbn⟩ := hn.exists_last
    exact ⟨b, hb.reflTransGen, hbn, Nat.lt_succ_of_le hb.distance_le⟩

end

end LinkRepair
