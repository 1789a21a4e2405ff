/-!
# Walks

A walk goes over a tree that may change under its feet.  Entering a node changes the state and
tells which nodes to visit next, below it; these are then visited in order, each with everything
below it.

* `walk`              one node, down to a number of levels;
* `walkAll`           a list of nodes, one after the other;
* `walk_invariant`    what entering a node keeps, the walk keeps.
-/

namespace LinkRepair

section
variable {σ ν : Type}

def walk (enter : σ → ν → σ × List ν) : Nat → σ → ν → σ
  | 0, s, _ => s
  | depth + 1, s, n =>
    match enter s n with
    | (s, below) => below.foldl (walk enter depth) s

def walkAll (enter : σ → ν → σ × List ν) (depth : Nat) (s : σ) (ns : List ν) : σ :=
  ns.foldl (walk enter depth) s

variable (enter : σ → ν → σ × List ν)

theorem walk_zero (s : σ) (n : ν) : walk enter 0 s n = s := rfl

theorem walk_succ (depth : Nat) (s : σ) (n : ν) :
    walk enter (depth + 1) s n = walkAll enter depth (enter s n).1 (enter s n).2 := rfl

theorem walkAll_nil (depth : Nat) (s : σ) : walkAll enter depth s [] = s := rfl

theorem walkAll_cons (depth : Nat) (s : σ) (n : ν) (ns : List ν) :
    walkAll enter depth s (n :: ns) = walkAll enter depth (walk enter depth s n) ns := rfl

theorem walkAll_append (depth : Nat) (s : σ) (ns ms : List ν) :
    walkAll enter depth s (ns ++ ms) = walkAll enter depth (walkAll enter depth s ns) ms := by
  simp [walkAll, List.foldl_append]

theorem walkAll_invariant {P : σ → Prop} (depth : Nat)
    (h : ∀ s n, P s → P (walk enter depth s n)) :
    ∀ (ns : List ν) (s : σ), P s → P (walkAll enter depth s ns) := by
  intro ns
  induction ns with
  | nil => intro s hs; exact hs
  | cons n ns ih => intro s hs; exact ih _ (h s n hs)

/-- **What entering a node keeps, the walk keeps.** -/
theorem walk_invariant {P : σ → Prop} (h : ∀ s n, P s → P (enter s n).1) :
    ∀ (depth : Nat) (s : σ) (n : ν), P s → P (walk enter depth s n) := by
  intro depth
  induction depth with
  | zero => intro s n hs; exact hs
  | succ depth ih =>
    intro s n hs
    rw [walk_succ]
    exact walkAll_invariant enter depth ih _ _ (h s n hs)

end

end LinkRepair
