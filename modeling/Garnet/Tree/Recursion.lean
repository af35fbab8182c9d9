import Garnet.Tree.Basic

/-!
# Recursion by rules

A walk over a tree treats it with the help of its own treatment of smaller trees. `recurseOn` ties
that knot for any measure of size, so a rule of a walk is a plain function that takes the recursion as
an argument. A rule that asks for the treatment of something that is not smaller gets no answer.
-/

namespace Garnet

section

variable {m : Type → Type} [Monad m] {α β κ : Type} [Inhabited β]

/-- Treat a thing by `step`, which may treat any thing of a smaller measure. -/
def recurseOn (measure : α → Nat) (step : (α → m β) → α → m β) (a : α) : m β :=
  let bound := measure a
  step (fun b => if measure b < bound then recurseOn measure step b else pure default) a
termination_by measure a

theorem recurseOn_eq (measure : α → Nat) (step : (α → m β) → α → m β) (a : α) :
    recurseOn measure step a =
      step (fun b => if measure b < measure a then recurseOn measure step b else pure default) a := by
  rw [recurseOn]

/-- Treat a tree by `step`, which may treat any smaller tree, in a context of its choice. -/
def Tree.recurse (step : (κ → Tree → m β) → κ → Tree → m β) (k : κ) (e : Tree) : m β :=
  recurseOn (fun p : κ × Tree => p.2.size)
    (fun rec p => step (fun k e => rec (k, e)) p.1 p.2) (k, e)

theorem Tree.recurse_eq (step : (κ → Tree → m β) → κ → Tree → m β) (k : κ) (e : Tree) :
    Tree.recurse step k e =
      step (fun k c => if c.size < e.size then Tree.recurse step k c else pure default) k e := by
  rw [Tree.recurse, recurseOn_eq]
  rfl

end

end Garnet
